import Apus.Endpoints.RbTree
import Apus.Group.Join

namespace Apus

open Lib

/-!
# The endpoint database

`dare_ep_db.c`: the endpoints that a leader has heard of, in a red-black tree in the order of their LIDs.
An endpoint is a struct with a node of the tree in it; what is in the struct besides the node is kept by
the address of the struct, too.  As with the tree, a function returns `none` when it follows NULL or a
pointer to what is not there, or when a loop is not done after the given number of rounds.
-/

/-- `ud_ep_t`, with the address handle by its address. -/
structure DareEp.UdEp where
  lid : UInt16
  gid : List UInt8
  qpn : UInt32
  ah : Ptr

/-- `dare_ep_t`, without the node. -/
structure DareEp extends Endpoint where
  udEp : DareEp.UdEp
  lastReadRequest : List UInt8
  waitForIdx : UInt64

def DareEp.lid (ep : DareEp) : UInt16 := ep.udEp.lid

/-- What `malloc` and `ud_ah_create` give for a new endpoint: a block with whatever is in it, and an
    address handle. -/
structure EpAlloc where
  addr : Ptr
  node : RbNode
  ep : DareEp
  ah : Ptr

/-- The database. -/
structure EpDb where
  mem : RbMem
  ep : Ptr → Option DareEp

namespace EpDb

/-- `RB_ROOT`. -/
def empty : EpDb := ⟨⟨NULL, fun _ => none⟩, fun _ => none⟩

variable (db : EpDb)

def setEp (p : Ptr) (ep : DareEp) : EpDb := { db with ep := Function.update db.ep p (some ep) }

/-- Fields of `p` are changed. -/
def modifyEp (p : Ptr) (f : DareEp → DareEp) : Option EpDb := (db.ep p).map fun ep => db.setEp p (f ep)

/-- The loop of `ep_search`. -/
def epSearchLoop (lid : UInt16) : Nat → Ptr → Option Ptr
  | 0, _ => none
  | fuel + 1, node =>
    if node = NULL then some NULL
    else do
      let ep ← db.ep node
      if lid < ep.lid then
        let node ← db.mem.child .left node
        epSearchLoop lid fuel node
      else if ep.lid < lid then
        let node ← db.mem.child .right node
        epSearchLoop lid fuel node
      else some node

/-- `ep_search`. -/
def epSearch (fuel : Nat) (lid : UInt16) : Option Ptr := db.epSearchLoop lid fuel db.mem.root

/-- The loop of `ep_insert`: the place for a new node and its parent, or nothing if the LID is there. -/
def epInsertLoop (lid : UInt16) : Nat → RbMem.Link → Ptr → Option (Option (RbMem.Link × Ptr))
  | 0, _, _ => none
  | fuel + 1, link, parent => do
    let node ← db.mem.follow link
    if node = NULL then some (some (link, parent))
    else
      let this ← db.ep node
      if lid < this.lid then epInsertLoop lid fuel (.child .left node) node
      else if this.lid < lid then epInsertLoop lid fuel (.child .right node) node
      else some none

/-- The new endpoint. -/
def newEp (lid : UInt16) (gid : List UInt8) (alloc : EpAlloc) : DareEp :=
  { alloc.ep with
    udEp := { alloc.ep.udEp with lid := lid, gid := gid, ah := alloc.ah }
    lastReqId := 0
    cidIdx := 0
    committed := false
    waitForIdx := 0 }

/-- `ep_insert`, with the pointer that is returned. -/
def epInsert (fuel : Nat) (lid : UInt16) (gid : List UInt8) (alloc : EpAlloc) : Option (EpDb × Ptr) := do
  match ← db.epInsertLoop lid fuel .root NULL with
  | none => some (db, NULL)
  | some (link, parent) =>
    let mem := db.mem.write alloc.addr alloc.node
    let mem ← mem.rbLinkNode alloc.addr parent link
    let mem ← mem.rbInsertColor fuel alloc.addr
    some (⟨mem, Function.update db.ep alloc.addr (some (newEp lid gid alloc))⟩, alloc.addr)

/-- `free_ep`, with the address handle that is destroyed. -/
def freeEp (p : Ptr) : Option (EpDb × Ptr) := do
  let ep ← db.ep p
  some (⟨{ db.mem with node := Function.update db.mem.node p none }, Function.update db.ep p none⟩,
    ep.udEp.ah)

/-- `ep_erase`, with the address handle that is destroyed. -/
def epErase (fuel : Nat) (lid : UInt16) : Option (EpDb × Option Ptr) := do
  let p ← db.epSearch fuel lid
  if p = NULL then some (db, none)
  else
    let mem ← db.mem.rbErase fuel p
    let (db, ah) ← freeEp { db with mem := mem } p
    some (db, some ah)

/-- The loop of `ep_db_print`, with what is printed of an endpoint. -/
def epDbPrintLoop (fuel : Nat) : Nat → Ptr → Option (List (UInt16 × UInt32))
  | 0, _ => none
  | n + 1, node =>
    if node = NULL then some []
    else do
      let ep ← db.ep node
      let next ← db.mem.rbNext fuel node
      let rest ← epDbPrintLoop fuel n next
      some ((ep.lid, ep.udEp.qpn) :: rest)

/-- `ep_db_print`. -/
def epDbPrint (fuel : Nat) : Option (List (UInt16 × UInt32)) := do
  let node ← db.mem.rbFirst fuel
  db.epDbPrintLoop fuel fuel node

/-- The loop of `ep_db_free`, with the address handles that are destroyed. -/
def epDbFreeLoop (fuel : Nat) : Nat → EpDb → Ptr → Option (EpDb × List Ptr)
  | 0, _, _ => none
  | n + 1, db, node =>
    if node = NULL then some (db, [])
    else do
      let next ← db.mem.rbNextPostorder fuel node
      let (db, ah) ← db.freeEp node
      let (db, ahs) ← epDbFreeLoop fuel n db next
      some (db, ah :: ahs)

/-- `ep_db_free`. -/
def epDbFree (fuel : Nat) : Option (EpDb × List Ptr) := do
  let node ← db.mem.rbFirstPostorder fuel
  epDbFreeLoop fuel fuel db node

/-- The loop of `ep_dp_reset_wait_idx`. -/
def epDpResetLoop (fuel : Nat) : Nat → EpDb → Ptr → Option EpDb
  | 0, _, _ => none
  | n + 1, db, node =>
    if node = NULL then some db
    else do
      let db ← db.modifyEp node fun ep => { ep with waitForIdx := 0 }
      let next ← db.mem.rbNext fuel node
      epDpResetLoop fuel n db next

/-- `ep_dp_reset_wait_idx`. -/
def epDpResetWaitIdx (fuel : Nat) : Option EpDb := do
  let node ← db.mem.rbFirst fuel
  epDpResetLoop fuel fuel db node

/-- What `ep_dp_reply_read_req` does: whether it verifies the leadership, and the endpoints that get an
    answer, as they were before. -/
structure ReadReplies where
  db : EpDb
  verified : Bool
  answered : List DareEp

/-- The loop of `ep_dp_reply_read_req`; `leader` is what `rc_verify_leadership` says. -/
def epDpReplyLoop (fuel : Nat) (idx : UInt64) (leader : Bool) :
    Nat → ReadReplies → Ptr → Option ReadReplies
  | 0, _, _ => none
  | n + 1, s, node =>
    if node = NULL then some s
    else do
      let ep ← s.db.ep node
      if ep.waitForIdx = 0 then
        let next ← s.db.mem.rbNext fuel node
        epDpReplyLoop fuel idx leader n s next
      else if s.verified = false ∧ leader = false then
        -- no longer the leader
        let db ← s.db.epDpResetWaitIdx fuel
        some { s with db := db, verified := true }
      else if ep.waitForIdx < idx then
        -- `ud_clt_answer_read_request`
        let db ← s.db.modifyEp node fun ep => { ep with waitForIdx := 0 }
        let next ← db.mem.rbNext fuel node
        epDpReplyLoop fuel idx leader n ⟨db, true, s.answered ++ [ep]⟩ next
      else
        let next ← s.db.mem.rbNext fuel node
        epDpReplyLoop fuel idx leader n { s with verified := true } next

/-- `ep_dp_reply_read_req`. -/
def epDpReplyReadReq (fuel : Nat) (idx : UInt64) (leader : Bool) : Option ReadReplies := do
  let node ← db.mem.rbFirst fuel
  epDpReplyLoop fuel idx leader fuel ⟨db, false, []⟩ node

end EpDb

end Apus
