import Apus.Config
import Apus.Lib.Quorum

namespace Apus

open Lib

/-!
# Waiting for a majority

`wait_for_majority` polls the completion queue until more than half of the servers have completed
the operation posted to them, or until no operation of this round is left.  `posted_sends[i]` counts
the operations posted to server `i` that are not completed; it is negative if there was none.

What a completion is taken for is decided by `handle_work_completion`, which the loop calls with the
first element of the array of completions, whichever element it is at.
-/

/-- What `handle_work_completion` returns. -/
inductive WcStatus
  | success
  | failure
  | softwareBug
  | error
  deriving DecidableEq

/-- A work completion: the server, whether it is of this round, and its own status. -/
structure WorkCompletion where
  conn : Nat
  /-- The send sequence number is that of this round, and not an earlier one. -/
  current : Bool
  status : WcStatus

/-- `posted_sends` after an operation was posted to the whole group of `size`; `own` is the element of
    the server itself.  The elements behind the group stay 0. -/
def groupSends (size idx : Nat) (own : Int) (reaches : Nat → Bool) (i : Nat) : Int :=
  if size ≤ i then 0 else if i = idx then own else if reaches i then 1 else -1

/-- `empty_completion_queue`, as far as `posted_sends` is concerned. -/
def emptyCompletionQueue (posted : Nat → Int) : List WorkCompletion → Nat → Int
  | [] => posted
  | wc :: wcs =>
    let posted :=
      if wc.current && wc.status == .success then
        Function.update posted wc.conn (posted wc.conn - 1)
      else if wc.current && wc.status == .failure then Function.update posted wc.conn (-1)
      else posted
    emptyCompletionQueue posted wcs

/-- The variables of the loop. -/
structure Waiting where
  posted : Nat → Int
  /-- `success_count`. -/
  successes : UInt8
  /-- `posted_send_count`. -/
  pending : UInt8

/-- The loop over the completions of one poll; `first` is the status of the first of them. -/
def waitBatch (size : UInt8) (connected : Nat → Bool) (first : WcStatus) :
    Waiting → List WorkCompletion → Waiting
  | w, [] => w
  | w, wc :: wcs =>
    let w := if wc.current then { w with pending := w.pending - 1 } else w
    let w :=
      if !connected wc.conn then w
      else if first ≠ .success then w
      -- a completion of an earlier round
      else if !wc.current then w
      else
        let left := w.posted wc.conn - 1
        { w with
          posted := Function.update w.posted wc.conn left
          successes :=
            if left = 0 ∧ wc.conn < size.toNat then w.successes + 1 else w.successes }
    waitBatch size connected first w wcs

/-- The completions of a poll that the loop comes to; it counts them with a byte. -/
def examined (wcs : List WorkCompletion) : List WorkCompletion := wcs.take (wcs.length % 256)

/-- The loop over the polls, with the completions that each of them finds.  Returns the variables
    and the polls left; `none` if the loop is not done with them. -/
def waitLoop (size : UInt8) (connected : Nat → Bool) :
    List (List WorkCompletion) → Waiting → Option (Waiting × List (List WorkCompletion))
  | polls, w =>
    if w.successes ≤ size / 2 ∧ w.pending ≠ 0 then
      match polls with
      | [] => none
      | [] :: polls => waitLoop size connected polls w
      | (first :: rest) :: polls =>
        waitLoop size connected polls
          (waitBatch size connected first.status w (examined (first :: rest)))
    else some (w, polls)

/-- `success_count` at the start of a round of the outer loop. -/
def countSuccesses (posted : Nat → Int) (size : UInt8) : UInt8 :=
  UInt8.ofNat ((List.range size.toNat).filter fun i => posted i == 0).length

/-- `posted_send_count` at the start. -/
def countPosted (posted : Nat → Int) (size : UInt8) : UInt8 :=
  (List.range size.toNat).foldl
    (fun count i => if posted i < 0 then count else count + UInt8.ofNat (posted i).toNat) 0

/-- `wait_for_majority`: `posted_sends` when it returns, and whether it returns `RC_SUCCESS`; `none`
    if it still waits after the polls. -/
def waitForMajority (cid : DareCid) (connected : Nat → Bool) (posted : Nat → Int)
    (polls : List (List WorkCompletion)) : Option ((Nat → Int) × Bool) :=
  let pending := countPosted posted (getGroupSize cid)
  match waitLoop cid.size0 connected polls ⟨posted, countSuccesses posted cid.size0, pending⟩ with
  | none => none
  | some (w, polls) =>
    if cid.state = CID_STABLE then some (w.posted, decide (cid.size0 / 2 < w.successes))
    else
      match waitLoop cid.size1 connected polls
          { w with successes := countSuccesses w.posted cid.size1 } with
      | none => none
      | some (w, _) => some (w.posted, decide (cid.size1 / 2 < w.successes))

/-! ### What a round counts -/

/-- If the first completion of a poll is a success, so are the others of this round. -/
def firstTells (wcs : List WorkCompletion) : Bool :=
  wcs.head?.all (fun first => first.status != .success) ||
    (examined wcs).all fun wc => !wc.current || wc.status == .success

/-- The completions that are left of a round belong to operations that are posted, one for each
    server, and `done` holds of the slots that are 0. -/
structure RoundOk (done : Nat → Prop) (posted : Nat → Int) (rest : List WorkCompletion) : Prop where
  completed : ∀ i, posted i = 0 → done i
  left : ∀ wc ∈ rest, wc.current = true → posted wc.conn = 1
  nodup : ((rest.filter WorkCompletion.current).map WorkCompletion.conn).Nodup

variable {size : UInt8} {done : Nat → Prop} {posted : Nat → Int} {wc : WorkCompletion}
  {batch rest : List WorkCompletion} {w : Waiting}

theorem RoundOk.skip (h : RoundOk done posted (wc :: rest)) : RoundOk done posted rest where
  completed := h.completed
  left := fun wc' hmem => h.left wc' (List.mem_cons_of_mem wc hmem)
  nodup := by
    have hnodup := h.nodup
    rw [List.filter_cons] at hnodup
    split at hnodup
    · exact (List.nodup_cons.mp hnodup).2
    · exact hnodup

theorem RoundOk.drop (h : RoundOk done posted (batch ++ rest)) : RoundOk done posted rest := by
  induction batch with
  | nil => exact h
  | cons wc batch ih => exact ih h.skip

/-- A completion settles the operation of its server. -/
theorem RoundOk.settle (h : RoundOk done posted (wc :: rest)) (hcurrent : wc.current = true)
    {left : Int} (hleft : left = 0 → done wc.conn) :
    RoundOk done (Function.update posted wc.conn left) rest where
  completed := by
    intro i hi
    by_cases hconn : i = wc.conn
    · subst hconn
      rw [Function.update_self] at hi
      exact hleft hi
    · rw [Function.update_of_ne hconn] at hi
      exact h.completed i hi
  left := by
    intro wc' hmem hcurrent'
    have hnodup := h.nodup
    rw [List.filter_cons_of_pos hcurrent, List.map_cons, List.nodup_cons] at hnodup
    have hne : wc'.conn ≠ wc.conn := by
      intro heq
      exact hnodup.1 (List.mem_map.mpr ⟨wc', List.mem_filter.mpr ⟨hmem, hcurrent'⟩, heq⟩)
    rw [Function.update_of_ne hne]
    exact h.left wc' (List.mem_cons_of_mem wc hmem) hcurrent'
  nodup := h.skip.nodup

theorem RoundOk.emptyCompletionQueue (h : RoundOk done posted (batch ++ rest))
    (hdone : ∀ wc ∈ batch, wc.current = true → wc.status = .success → done wc.conn) :
    RoundOk done (emptyCompletionQueue posted batch) rest := by
  induction batch generalizing posted with
  | nil => exact h
  | cons wc batch ih =>
    rw [Apus.emptyCompletionQueue]
    refine ih ?_ fun wc' hmem => hdone wc' (List.mem_cons_of_mem wc hmem)
    by_cases hcurrent : wc.current = true
    · cases hstatus : wc.status with
      | success =>
        simp only [hcurrent, beq_self_eq_true, Bool.and_self, if_true]
        exact h.settle hcurrent fun _ => hdone wc List.mem_cons_self hcurrent hstatus
      | failure =>
        simp only [hcurrent, Bool.true_and, beq_self_eq_true, if_true]
        exact h.settle hcurrent fun hzero => by cases hzero
      | _ => simpa [hcurrent] using h.skip
    · simpa [hcurrent] using h.skip

/-- The loop has counted the operations that are completed. -/
structure CountsOk (size : UInt8) (done : Nat → Prop) (w : Waiting) (rest : List WorkCompletion) : Prop
    extends RoundOk done w.posted rest where
  count : w.successes.toNat = (members size.toNat fun i => w.posted i == 0).card

/-- One more operation is completed; it counts if its server is one of the first `n`. -/
theorem card_completed {n : Nat} (hposted : posted wc.conn = 1) :
    (members n fun i => Function.update posted wc.conn 0 i == 0).card =
      (members n fun i => posted i == 0).card + if wc.conn < n then 1 else 0 := by
  have hnot : wc.conn ∉ members n fun i => posted i == 0 := by simp [hposted]
  split
  · rename_i hlt
    rw [← Finset.card_insert_of_notMem hnot]
    congr 1
    ext i
    by_cases hi : i = wc.conn
    · simp [hi, hlt]
    · simp [hi]
  · rename_i hge
    rw [Nat.add_zero]
    congr 1
    ext i
    by_cases hi : i = wc.conn
    · simp [hi, hge]
    · simp [hi]

theorem card_members_le (n : Nat) (p : Nat → Bool) : (members n p).card ≤ n :=
  (Finset.card_filter_le _ _).trans (Finset.card_range n).le

theorem CountsOk.waitBatch {connected : Nat → Bool} {first : WcStatus}
    (h : CountsOk size done w (batch ++ rest))
    (hdone : first = .success → ∀ wc ∈ batch, wc.current = true → done wc.conn) :
    CountsOk size done (waitBatch size connected first w batch) rest := by
  induction batch generalizing w with
  | nil => exact h
  | cons wc batch ih =>
    rw [Apus.waitBatch]
    refine ih ?_ fun hfirst wc' hmem => hdone hfirst wc' (List.mem_cons_of_mem wc hmem)
    have hskip : CountsOk size done
        (if wc.current then { w with pending := w.pending - 1 } else w) (batch ++ rest) := by
      split <;> exact ⟨h.skip, h.count⟩
    split
    · exact hskip
    · split
      · exact hskip
      · rename_i hfirst
        split
        · exact hskip
        · rename_i hcurrent
          have hcurrent : wc.current = true := by simpa using hcurrent
          have hposted := h.left wc List.mem_cons_self hcurrent
          simp only [if_pos hcurrent, hposted, sub_self, true_and]
          refine ⟨h.settle hcurrent fun _ =>
            hdone (not_not.mp hfirst) wc List.mem_cons_self hcurrent, ?_⟩
          -- no overflow, since the group is not larger than a byte
          have hcard := card_completed (n := size.toNat) hposted
          have hle := card_members_le size.toNat fun i => Function.update w.posted wc.conn 0 i == 0
          have hsize := size.toNat_lt
          have hone : (1 : UInt8).toNat = 1 := rfl
          have hcount := h.count
          dsimp only
          rw [hcard]
          split
          · rename_i hlt
            rw [if_pos hlt] at hcard
            rw [UInt8.toNat_add, hone]
            omega
          · exact hcount

/-- The loop over the polls keeps the count. -/
theorem CountsOk.waitLoop {connected : Nat → Bool} {polls polls' : List (List WorkCompletion)}
    {w' : Waiting} (h : CountsOk size done w polls.flatten)
    (hdone : ∀ poll ∈ polls, firstTells poll = true ∧
      ∀ wc ∈ poll, wc.current = true → wc.status = .success → done wc.conn)
    (hloop : waitLoop size connected polls w = some (w', polls')) :
    CountsOk size done w' polls'.flatten ∧ ∀ poll ∈ polls', poll ∈ polls := by
  induction polls generalizing w with
  | nil =>
    rw [Apus.waitLoop] at hloop
    split at hloop
    · cases hloop
    · cases hloop
      exact ⟨h, fun poll hmem => hmem⟩
  | cons poll polls ih =>
    have hrest := fun poll' hmem => hdone poll' (List.mem_cons_of_mem poll hmem)
    have hmore {w : Waiting} (hw : CountsOk size done w polls.flatten)
        (hloop : Apus.waitLoop size connected polls w = some (w', polls')) :
        CountsOk size done w' polls'.flatten ∧ ∀ poll' ∈ polls', poll' ∈ poll :: polls := by
      obtain ⟨hcounts, hsub⟩ := ih hw hrest hloop
      exact ⟨hcounts, fun poll' hmem => List.mem_cons_of_mem poll (hsub poll' hmem)⟩
    have hflat := h
    rw [List.flatten_cons] at hflat
    cases poll with
    | nil =>
      rw [Apus.waitLoop] at hloop
      split at hloop
      · exact hmore hflat hloop
      · cases hloop
        exact ⟨h, fun poll hmem => hmem⟩
    | cons first rest =>
      rw [Apus.waitLoop] at hloop
      split at hloop
      · rw [← List.take_append_drop ((first :: rest).length % 256) (first :: rest),
          List.append_assoc] at hflat
        obtain ⟨htells, hin⟩ := hdone _ List.mem_cons_self
        -- if the first completion is one of success, all current ones are
        have hgood : first.status = .success → ∀ wc ∈ examined (first :: rest), wc.current = true →
            done wc.conn := by
          intro hfirst wc hmem hcurrent
          refine hin wc (List.mem_of_mem_take hmem) hcurrent ?_
          rw [firstTells, List.head?_cons, Option.all_some, hfirst, bne_self_eq_false, Bool.false_or,
            List.all_eq_true] at htells
          simpa [hcurrent] using htells wc hmem
        -- the batch that is looked at keeps the count
        have hbatch : CountsOk size done
            (Apus.waitBatch size connected first.status w (examined (first :: rest)))
            ((first :: rest).drop ((first :: rest).length % 256) ++ polls.flatten) :=
          hflat.waitBatch hgood
        exact hmore ⟨hbatch.toRoundOk.drop, hbatch.count⟩ hloop
      · cases hloop
        exact ⟨h, fun poll hmem => hmem⟩

/-- `success_count` at the start is the number of the operations that are completed. -/
theorem toNat_countSuccesses (posted : Nat → Int) (size : UInt8) :
    (countSuccesses posted size).toNat = (members size.toNat fun i => posted i == 0).card := by
  have hle := card_members_le size.toNat fun i => posted i == 0
  have hsize := size.toNat_lt
  rw [countSuccesses, length_filter_range, UInt8.toNat_ofNat']
  exact Nat.mod_eq_of_lt (by omega)

/-- The count is more than half of the size. -/
theorem CountsOk.isMajority (h : CountsOk size done w rest) :
    size / 2 < w.successes ↔ IsMajority size.toNat fun i => w.posted i == 0 := by
  have htwo : (2 : UInt8).toNat = 2 := rfl
  rw [UInt8.lt_iff_toNat_lt, UInt8.toNat_div, htwo, IsMajority, ← h.count]
  exact Iff.rfl

/-- The size whose majority decides what `wait_for_majority` returns. -/
def decidingSize (cid : DareCid) : UInt8 := if cid.state = CID_STABLE then cid.size0 else cid.size1

/-- A round that succeeds has more than half of the first slots 0, up to the size that decides. -/
theorem isMajority_of_wait {cid : DareCid} {connected : Nat → Bool}
    {polls : List (List WorkCompletion)} {posted' : Nat → Int} (h : RoundOk done posted polls.flatten)
    (hdone : ∀ poll ∈ polls, firstTells poll = true ∧
      ∀ wc ∈ poll, wc.current = true → wc.status = .success → done wc.conn)
    (hwait : waitForMajority cid connected posted polls = some (posted', true)) :
    IsMajority (decidingSize cid).toNat (fun i => posted' i == 0) ∧ ∀ i, posted' i = 0 → done i := by
  rw [waitForMajority] at hwait
  split at hwait
  · cases hwait
  · rename_i w polls' hloop
    obtain ⟨hcounts, hsub⟩ := CountsOk.waitLoop ⟨h, toNat_countSuccesses posted cid.size0⟩ hdone hloop
    split at hwait
    · rename_i hstable
      rw [Option.some.injEq, Prod.mk.injEq, decide_eq_true_eq] at hwait
      obtain ⟨rfl, hpass⟩ := hwait
      rw [decidingSize, if_pos hstable]
      exact ⟨hcounts.isMajority.mp hpass, hcounts.completed⟩
    · rename_i hunstable
      split at hwait
      · cases hwait
      · rename_i w' polls'' hloop'
        -- the second loop counts anew
        obtain ⟨hcounts', -⟩ := CountsOk.waitLoop
          (w := { w with successes := countSuccesses w.posted cid.size1 })
          ⟨hcounts.toRoundOk, toNat_countSuccesses w.posted cid.size1⟩
          (fun poll hmem => hdone poll (hsub poll hmem)) hloop'
        rw [Option.some.injEq, Prod.mk.injEq, decide_eq_true_eq] at hwait
        obtain ⟨rfl, hpass⟩ := hwait
        rw [decidingSize, if_neg hunstable]
        exact ⟨hcounts'.isMajority.mp hpass, hcounts'.completed⟩

end Apus
