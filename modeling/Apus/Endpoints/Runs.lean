import Apus.Endpoints.Traversal

namespace Apus

open Lib
open scoped EpDb

/-!
# Runs of the endpoint database

The functions of the database are called in any order.  What they return is what the table says, as long as
`malloc` gives blocks that are not in use.

* `EpDb.call`, `EpTable.call` — the functions on the tree, and as operations on the table;
* `EpDb.call_lists` — one call;
* `EpDb.callAll_lists` — a run;
* `epDb_refines` — a run from the empty database; the loops that go down or up in the tree end within 33
  rounds, as there are not more than 65536 LIDs;
* `epDb_freed` — and `ep_db_free` at its end.
-/

/-- A call of a function, or a change of the endpoint that `ep_search` returns. -/
inductive EpCall
  | search (lid : UInt16)
  | insert (lid : UInt16) (gid : List UInt8) (alloc : EpAlloc)
  | change (lid : UInt16) (f : DareEp → DareEp)
      (keeps : ∀ ep, (f ep).lid = ep.lid ∧ (f ep).udEp.ah = ep.udEp.ah)
  | erase (lid : UInt16)
  | print
  | resetWaitIdx
  | replyReadReq (idx : UInt64) (leader : Bool)

/-- What is returned, what is behind the pointer that is returned, or what is done besides. -/
inductive EpReturn
  | found (ep : Option DareEp)
  | erased (ah : Option Ptr)
  | printed (eps : List (UInt16 × UInt32))
  | replied (verified : Bool) (answered : List DareEp)
  | done

/-- A call; `none` if NULL is dereferenced. -/
def EpTable.call (t : EpTable) : EpCall → Option (EpTable × EpReturn)
  | .search lid => some (t, .found (t.find lid))
  | .insert lid gid alloc =>
    match t.find lid with
    | some _ => some (t, .found none)
    | none => some (t.insert (EpDb.newEp lid gid alloc), .found (some (EpDb.newEp lid gid alloc)))
  | .change lid f _ => (t.find lid).map fun ep => (t.insert (f ep), .done)
  | .erase lid => some (t.erase lid, .erased ((t.find lid).map fun ep => ep.udEp.ah))
  | .print => some (t, .printed (t.entries.map fun ep => (ep.lid, ep.udEp.qpn)))
  | .resetWaitIdx => some (resetWaitIdx t, .done)
  | .replyReadReq idx leader =>
    some ((replyReadReq t idx leader).1, .replied (waiting t) (replyReadReq t idx leader).2)

/-- The calls of a run, with what they return. -/
def EpTable.callAll (t : EpTable) : List EpCall → Option (EpTable × List EpReturn)
  | [] => some (t, [])
  | c :: cs => do
    let (t, r) ← EpTable.call t c
    let (t, rs) ← EpTable.callAll t cs
    some (t, r :: rs)

/-! ### Address handles -/

/-- The address handle that a call creates. -/
def EpCall.created : EpCall → EpReturn → List Ptr
  | .insert _ _ alloc, .found (some _) => [alloc.ah]
  | _, _ => []

/-- The address handle that a call destroys. -/
def EpReturn.destroyed : EpReturn → List Ptr
  | .erased (some ah) => [ah]
  | _ => []

/-- The address handles that a run creates. -/
def created : List EpCall → List EpReturn → List Ptr
  | c :: cs, r :: rs => c.created r ++ created cs rs
  | _, _ => []

namespace EpTable

/-- The address handles of the endpoints. -/
def handles (t : EpTable) : List Ptr := t.entries.map fun ep => ep.udEp.ah

theorem handles_map {t : EpTable} (f : DareEp → DareEp) (hf : ∀ ep, (f ep).lid = ep.lid)
    (hah : ∀ ep, (f ep).udEp.ah = ep.udEp.ah) : handles (t.map f hf) = handles t := by
  show (t.entries.map f).map _ = _
  rw [List.map_map]
  exact List.map_congr_left fun ep _ => hah ep

/-- A handle is created with an endpoint, and destroyed with it. -/
theorem call_handles {t t' : EpTable} {c : EpCall} {r : EpReturn} (h : EpTable.call t c = some (t', r)) :
    (c.created r ++ handles t).Perm (r.destroyed ++ handles t') := by
  cases c with
  | search lid =>
    cases h
    exact List.Perm.refl _
  | insert lid gid alloc =>
    cases hfind : t.find lid with
    | some ep =>
      simp only [EpTable.call, hfind] at h
      cases h
      exact List.Perm.refl _
    | none =>
      simp only [EpTable.call, hfind] at h
      cases h
      have hperm := (KeyTable.perm_insert (t := t) (e := EpDb.newEp lid gid alloc)).map
        fun ep => ep.udEp.ah
      rw [show DareEp.lid (EpDb.newEp lid gid alloc) = lid from rfl, KeyTable.erase_eq_self hfind]
        at hperm
      exact hperm.symm
  | change lid f keeps =>
    obtain ⟨ep, hfind, heq⟩ := Option.map_eq_some_iff.mp h
    cases heq
    have hlid : (f ep).lid = lid := (keeps ep).1.trans (KeyTable.find_eq_some.mp hfind).2
    have hperm := (KeyTable.perm_insert (t := t) (e := f ep)).map fun ep => ep.udEp.ah
    have hperm' := (KeyTable.perm_erase hfind).map fun ep => ep.udEp.ah
    rw [List.map_cons, (keeps ep).2, hlid] at hperm
    exact hperm'.trans hperm.symm
  | erase lid =>
    cases h
    cases hfind : t.find lid with
    | none =>
      rw [KeyTable.erase_eq_self hfind]
      exact List.Perm.refl _
    | some ep => exact (KeyTable.perm_erase hfind).map fun ep => ep.udEp.ah
  | print =>
    cases h
    exact List.Perm.refl _
  | resetWaitIdx =>
    cases h
    exact .of_eq (handles_map DareEp.resetWaitIdx (fun _ => rfl) fun _ => rfl).symm
  | replyReadReq idx leader =>
    cases h
    cases leader with
    | false => exact .of_eq (handles_map DareEp.resetWaitIdx (fun _ => rfl) fun _ => rfl).symm
    | true => exact .of_eq (handles_map _ (DareEp.answer_lid idx) (DareEp.answer_ah idx)).symm

/-- The handles of a run. -/
theorem callAll_handles {cs : List EpCall} : ∀ {t t' : EpTable} {rs : List EpReturn},
    EpTable.callAll t cs = some (t', rs) →
      (created cs rs ++ handles t).Perm (rs.flatMap EpReturn.destroyed ++ handles t') := by
  induction cs with
  | nil =>
    intro t t' rs h
    cases h
    exact List.Perm.refl _
  | cons c cs ih =>
    intro t t' rs h
    obtain ⟨⟨t₁, r⟩, hcall, h⟩ := Option.bind_eq_some_iff.mp h
    obtain ⟨⟨t₂, rs'⟩, hrest, h⟩ := Option.bind_eq_some_iff.mp h
    cases h
    have hstep := call_handles hcall
    have hrun := ih hrest
    refine List.perm_iff_count.mpr fun a => ?_
    have hcount := hstep.count_eq a
    have hcount' := hrun.count_eq a
    simp only [created, List.flatMap_cons, List.count_append] at hcount hcount' ⊢
    omega

end EpTable

namespace EpDb

/-- A call, with the number of rounds for a loop that goes down or up in the tree, and for one that goes
    through all endpoints. -/
def call (rounds visits : Nat) (db : EpDb) : EpCall → Option (EpDb × EpReturn)
  | .search lid => do
    let p ← db.epSearch rounds lid
    some (db, .found (db.ep p))
  | .insert lid gid alloc => do
    let (db, p) ← db.epInsert rounds lid gid alloc
    some (db, .found (db.ep p))
  | .change lid f _ => do
    let p ← db.epSearch rounds lid
    let db ← db.modifyEp p f
    some (db, .done)
  | .erase lid => do
    let (db, ah) ← db.epErase rounds lid
    some (db, .erased ah)
  | .print => do
    let eps ← db.epDbPrint visits
    some (db, .printed eps)
  | .resetWaitIdx => do
    let db ← db.epDpResetWaitIdx visits
    some (db, .done)
  | .replyReadReq idx leader => do
    let s ← db.epDpReplyReadReq visits idx leader
    some (s.db, .replied s.verified s.answered)

/-- The calls of a run, with what they return. -/
def callAll (rounds visits : Nat) (db : EpDb) : List EpCall → Option (EpDb × List EpReturn)
  | [] => some (db, [])
  | c :: cs => do
    let (db, r) ← db.call rounds visits c
    let (db, rs) ← callAll rounds visits db cs
    some (db, r :: rs)

/-- The block for a new endpoint is not in use. -/
def Allocates (db : EpDb) : EpCall → Prop
  | .insert _ _ alloc => alloc.Fresh db
  | _ => True

/-- Every block is not in use when `malloc` returns it. -/
def AllocatesAll (rounds visits : Nat) : EpDb → List EpCall → Prop
  | _, [] => True
  | db, c :: cs => db.Allocates c ∧
    ∀ db' r, db.call rounds visits c = some (db', r) → AllocatesAll rounds visits db' cs

variable {db db' : EpDb} {t : EpTable} {ls xs ys : List Ptr} {p : Ptr} {lid : UInt16} {rounds visits : Nat}
  {ep ep' : DareEp} {r : EpReturn}

/-- There is nothing at NULL. -/
theorem Lists.ep_null (h : db.Lists ls t) : db.ep NULL = none := by
  by_contra hne
  exact (h.addrs.addr NULL (h.here NULL hne)).1 rfl

/-- The bounds for the loops, when there is an entry for every LID at most. -/
theorem Lists.log_le (h : db.Lists ls t) : 2 * Nat.log 2 (ls.length + 1) ≤ 32 := by
  have hlog : Nat.log 2 (ls.length + 1) ≤ 16 := by
    refine Nat.lt_succ_iff.mp (Nat.log_lt_of_lt_pow (Nat.succ_ne_zero _) ?_)
    have := h.length_le
    omega
  omega

/-- **A call is that of the table.** -/
theorem call_lists (h : db.Holds t) (hrounds : 32 < rounds) (hvisits : 65536 < visits) (c : EpCall)
    (halloc : db.Allocates c) :
    db.call rounds visits c = none ∧ EpTable.call t c = none ∨
      ∃ db' t' r, db.call rounds visits c = some (db', r) ∧ EpTable.call t c = some (t', r) ∧
        db'.Holds t' := by
  obtain ⟨ls, h⟩ := h
  have hlog := h.log_le
  have hlen := h.length_le
  have hdeep : 2 * Nat.log 2 (ls.length + 1) < rounds := by omega
  have hwide : 2 * Nat.log 2 (ls.length + 1) ≤ visits := by omega
  have hall : ls.length < visits := by omega
  cases c with
  | search lid =>
    obtain ⟨p, hsearch, hp, -, -⟩ := epSearch_lists h hdeep lid
    exact .inr ⟨db, t, .found (t.find lid), by simp [call, hsearch, hp], rfl, ls, h⟩
  | insert lid gid alloc =>
    rcases epInsert_lists h hdeep halloc lid gid with ⟨hthere, hinsert⟩ | hinserted
    · obtain ⟨ep, hfind⟩ := Option.ne_none_iff_exists'.mp hthere
      exact .inr ⟨db, t, .found none, by simp [call, hinsert, h.ep_null], by simp [EpTable.call, hfind],
        ls, h⟩
    · obtain ⟨hfind, db', ls', hinsert, hep, h'⟩ := hinserted
      exact .inr ⟨db', _, .found (some (newEp lid gid alloc)), by simp [call, hinsert, hep],
        by simp [EpTable.call, hfind], ls', h'⟩
  | change lid f keeps =>
    obtain ⟨p, hsearch, hp, -, -⟩ := epSearch_lists h hdeep lid
    cases hfind : t.find lid with
    | none => exact .inl ⟨by simp [call, hsearch, modifyEp, hp, hfind], by simp [EpTable.call, hfind]⟩
    | some ep =>
      rw [hfind] at hp
      exact .inr ⟨db.setEp p (f ep), _, .done, by simp [call, hsearch, modifyEp, hp],
        by simp [EpTable.call, hfind], ls, h.setEp hp (keeps ep).1⟩
  | erase lid =>
    obtain ⟨db', ls', herase, h'⟩ := epErase_lists h hdeep lid
    exact .inr ⟨db', _, _, by simp [call, herase], rfl, ls', h'⟩
  | print =>
    have hprint := h.epDbPrint_eq hwide hall
    exact .inr ⟨db, t, _, by simp [call, hprint], rfl, ls, h⟩
  | resetWaitIdx =>
    obtain ⟨db', hreset, h'⟩ := h.epDpResetWaitIdx_lists hwide hall
    exact .inr ⟨db', _, .done, by simp [call, hreset], rfl, ls, h'⟩
  | replyReadReq idx leader =>
    obtain ⟨db', hreply, h'⟩ :=
      h.epDpReplyReadReq_lists hwide hall idx leader
    exact .inr ⟨db', _, _, by simp [call, hreply], rfl, ls, h'⟩

/-- **A run is that of the table.** -/
theorem callAll_lists (hrounds : 32 < rounds) (hvisits : 65536 < visits) (cs : List EpCall) :
    ∀ {db : EpDb} {t : EpTable}, db.Holds t → AllocatesAll rounds visits db cs →
      db.callAll rounds visits cs = none ∧ EpTable.callAll t cs = none ∨
        ∃ db' t' rs, db.callAll rounds visits cs = some (db', rs) ∧ EpTable.callAll t cs = some (t', rs) ∧
          db'.Holds t' := by
  induction cs with
  | nil => exact fun h _ => .inr ⟨_, _, [], rfl, rfl, h⟩
  | cons c cs ih =>
    intro db t h halloc
    rcases call_lists h hrounds hvisits c halloc.1 with ⟨hcall, hcall'⟩ | ⟨db', t', r, hcall, hcall', h'⟩
    · exact .inl ⟨by simp [callAll, hcall], by simp [EpTable.callAll, hcall']⟩
    · rcases ih h' (halloc.2 db' r hcall) with ⟨hrest, hrest'⟩ | ⟨db'', t'', rs, hrest, hrest', h''⟩
      · exact .inl ⟨by simp [callAll, hcall, hrest], by simp [EpTable.callAll, hcall', hrest']⟩
      · exact .inr ⟨db'', t'', r :: rs, by simp [callAll, hcall, hrest],
          by simp [EpTable.callAll, hcall', hrest'], h''⟩

theorem empty_lists : empty.Lists [] (KeyTable.empty : EpTable) :=
  ⟨⟨.leaf, 0, ⟨rfl, trivial, ⟨List.nodup_nil, fun q hq => by cases hq⟩⟩, .leaf, rfl⟩, rfl,
    fun p hp => absurd rfl hp⟩

end EpDb

open EpDb

variable {rounds visits : Nat} {cs : List EpCall} {rs : List EpReturn} {db : EpDb}

/-- **The database refines the table**: the calls of a run return what those on the table do, and a run
    dereferences NULL only where a change is made to an endpoint that is not there. -/
theorem epDb_refines (hrounds : 32 < rounds) (hvisits : 65536 < visits)
    (halloc : AllocatesAll rounds visits .empty cs) :
    (EpDb.empty.callAll rounds visits cs).map Prod.snd =
        (EpTable.callAll .empty cs).map Prod.snd ∧
      ∀ db rs, EpDb.empty.callAll rounds visits cs = some (db, rs) →
        ∃ t, EpTable.callAll .empty cs = some (t, rs) ∧ db.Holds t := by
  rcases callAll_lists hrounds hvisits cs ⟨[], empty_lists⟩ halloc with
    ⟨hrun, hrun'⟩ | ⟨db, t, rs, hrun, hrun', h⟩
  · rw [hrun, hrun']
    exact ⟨rfl, fun _ _ heq => by cases heq⟩
  · rw [hrun, hrun']
    refine ⟨rfl, fun _ _ heq => ?_⟩
    cases heq
    exact ⟨t, rfl, h⟩

/-- A block at an address, and the address handle behind it. -/
def blockAt (p : Ptr) : EpAlloc := ⟨p, ⟨0, 0, 0⟩, ⟨⟨0, 0, false⟩, ⟨0, [], 0, 0⟩, [], 0⟩, p + 1⟩

/-- Two endpoints come in, one of them waits and is answered, and the other one goes. -/
def someCalls : List EpCall :=
  [.insert 7 [] (blockAt 16), .insert 3 [] (blockAt 32),
    .change 3 (fun ep => { ep with waitForIdx := 5 }) fun _ => ⟨rfl, rfl⟩,
    .replyReadReq 9 true, .erase 7, .print]

theorem someCalls_allocates : AllocatesAll 33 65537 .empty someCalls := by
  have hfree : (EpDb.empty.call 33 65537 (.insert 7 [] (blockAt 16))).map
      (fun x => (x.1.ep 32).isNone) = some true := by decide +kernel
  refine ⟨⟨⟨by decide, by decide⟩, rfl⟩, fun db r h => ⟨⟨⟨by decide, by decide⟩, ?_⟩, ?_⟩⟩
  · rw [h, Option.map_some, Option.some.injEq] at hfree
    exact Option.isNone_iff_eq_none.mp hfree
  · exact fun _ _ _ => ⟨trivial, fun _ _ _ => ⟨trivial, fun _ _ _ => ⟨trivial, fun _ _ _ =>
      ⟨trivial, fun _ _ _ => trivial⟩⟩⟩⟩

theorem epDb_refines_someCalls :
    (EpDb.empty.callAll 33 65537 someCalls).map Prod.snd = (EpTable.callAll .empty someCalls).map Prod.snd :=
  (epDb_refines (by decide) (by decide) someCalls_allocates).1

/-- **Nothing is left behind**: `ep_db_free` at the end of a run reads nothing that it freed, and then the
    address handles that were created are those that were destroyed, each one once. -/
theorem epDb_freed (hrounds : 32 < rounds) (hvisits : 65536 < visits)
    (halloc : AllocatesAll rounds visits .empty cs)
    (hrun : EpDb.empty.callAll rounds visits cs = some (db, rs)) :
    ∃ db' ahs, db.epDbFree visits = some (db', ahs) ∧ (∀ p, db'.ep p = none) ∧
      (created cs rs).Perm (rs.flatMap EpReturn.destroyed ++ ahs) := by
  rcases callAll_lists hrounds hvisits cs ⟨[], empty_lists⟩ halloc with
    ⟨hnone, -⟩ | ⟨db₁, t, rs₁, hrun₁, hrun', ls, h⟩
  · rw [hnone] at hrun
    cases hrun
  · cases hrun.symm.trans hrun₁
    have hlog : 2 * Nat.log 2 (ls.length + 1) ≤ visits := by have := h.log_le; omega
    have hlen : ls.length < visits := by have := h.length_le; omega
    obtain ⟨db', ahs, hfree, hperm, hgone, -⟩ := epDbFree_lists h hlog hlen
    have hhandles := EpTable.callAll_handles hrun'
    refine ⟨db', ahs, hfree, hgone, ?_⟩
    rw [show EpTable.handles .empty = [] from rfl, List.append_nil] at hhandles
    exact hhandles.trans (hperm.symm.append_left _)

theorem epDb_freed_someCalls : ∃ db rs, EpDb.empty.callAll 33 65537 someCalls = some (db, rs) ∧
    ∃ db' ahs, db.epDbFree 65537 = some (db', ahs) ∧ (∀ p, db'.ep p = none) ∧
      (created someCalls rs).Perm (rs.flatMap EpReturn.destroyed ++ ahs) := by
  have hends : (EpDb.empty.callAll 33 65537 someCalls).isSome = true := by decide +kernel
  obtain ⟨⟨db, rs⟩, hrun⟩ := Option.isSome_iff_exists.mp hends
  exact ⟨db, rs, hrun, epDb_freed (by decide) (by decide) someCalls_allocates hrun⟩

end Apus
