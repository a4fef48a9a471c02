import Apus.Election.Model

namespace Apus

/-!
# Departures

`update_cid` goes over the slots of the new configuration, and disconnects the servers that are ON in
the old one and not in the new one; a server that finds itself among them shuts down.  The slots behind
the sizes of the new configuration are not looked at, so that the servers that a group loses when it
becomes smaller stay connected.

* `serverUpdateCid_eq` — the function as the elections use it;
* `departuresDone_iff` — when every departure is processed.
-/

/-- Server departure. -/
def departs (old new : DareCid) (i : Nat) : Bool := !cidIsServerOn new i && cidIsServerOn old i

/-- What `update_cid` comes to, with the servers for which `dare_ib_disconnect_server` was called. -/
inductive CidUpdate
  /-- The configurations are equal. -/
  | unchanged
  /-- The server itself departs; `dare_server_shutdown` does not return. -/
  | shutdown (disconnected : List Nat)
  | updated (disconnected : List Nat)
deriving DecidableEq

/-- The loop of `update_cid`. -/
def departureLoop (old new : DareCid) (idx : Nat) : List Nat → List Nat → CidUpdate
  | disconnected, [] => .updated disconnected
  | disconnected, i :: is =>
    if departs old new i then
      if i = idx then .shutdown disconnected
      else departureLoop old new idx (disconnected ++ [i]) is
    else departureLoop old new idx disconnected is

/-- The slots that `update_cid` goes over. -/
def cidBound (new : DareCid) : Nat := max new.size0.toNat new.size1.toNat

/-- `update_cid` of server `idx`. -/
def updateCid (old : DareCid) (idx : Nat) (new : DareCid) : CidUpdate :=
  if equalCid old new then .unchanged
  else departureLoop old new idx [] (List.range (cidBound new))

/-- Every departure was processed: a server that departs itself shuts down, and otherwise exactly the
    servers that depart are disconnected. -/
def DeparturesDone (old : DareCid) (idx : Nat) (new : DareCid) : CidUpdate → Prop
  | .unchanged => ∀ i, departs old new i = false
  | .shutdown disconnected =>
    departs old new idx = true ∧ ∀ i ∈ disconnected, departs old new i = true
  | .updated disconnected =>
    departs old new idx = false ∧ (∀ i ∈ disconnected, departs old new i = true) ∧
      ∀ i < MAX_SERVER_COUNT, departs old new i = true → i ∈ disconnected

variable {old new : DareCid} {idx i : Nat} {disconnected is : List Nat}

/-! ### The loop -/

/-- At first nobody is disconnected. -/
theorem forall_departs_nil (old new : DareCid) : ∀ i ∈ ([] : List Nat), departs old new i = true :=
  fun _ hi => absurd hi List.not_mem_nil

/-- A server that comes to itself shuts down. -/
theorem departureLoop_of_mem (hidx : idx ∈ is) (hdeparts : departs old new idx = true)
    (hdone : ∀ i ∈ disconnected, departs old new i = true) :
    ∃ ds, departureLoop old new idx disconnected is = .shutdown ds ∧
      ∀ i ∈ ds, departs old new i = true := by
  induction is generalizing disconnected with
  | nil => cases hidx
  | cons i is ih =>
    rw [departureLoop]
    by_cases hi : departs old new i = true
    · rw [if_pos hi]
      by_cases heq : i = idx
      · exact ⟨disconnected, if_pos heq, hdone⟩
      · rw [if_neg heq]
        refine ih ((List.mem_cons.mp hidx).resolve_left (Ne.symm heq)) fun j hj => ?_
        rcases List.mem_append.mp hj with hj | hj
        · exact hdone j hj
        · exact List.mem_singleton.mp hj ▸ hi
    · rw [if_neg hi]
      refine ih ((List.mem_cons.mp hidx).resolve_left ?_) hdone
      rintro rfl
      exact hi hdeparts

/-- A server that does not come to itself disconnects those that depart. -/
theorem departureLoop_of_notMem (h : idx ∈ is → departs old new idx = false) :
    departureLoop old new idx disconnected is =
      .updated (disconnected ++ is.filter (departs old new)) := by
  induction is generalizing disconnected with
  | nil => simp [departureLoop]
  | cons i is ih =>
    have hrest : idx ∈ is → departs old new idx = false := fun hmem => h (List.mem_cons_of_mem i hmem)
    rw [departureLoop]
    by_cases hi : departs old new i = true
    · have hne : i ≠ idx := by
        rintro rfl
        rw [h List.mem_cons_self] at hi
        cases hi
      rw [if_pos hi, if_neg hne, ih hrest, List.filter_cons_of_pos hi, List.append_assoc]
      rfl
    · rw [if_neg hi, ih hrest, List.filter_cons_of_neg hi]

theorem departureLoop_ne_unchanged (disconnected is : List Nat) :
    departureLoop old new idx disconnected is ≠ .unchanged := by
  induction is generalizing disconnected with
  | nil => exact CidUpdate.noConfusion
  | cons i is ih =>
    rw [departureLoop]
    split
    · split
      · exact CidUpdate.noConfusion
      · exact ih _
    · exact ih _

/-- `update_cid` as the elections use it: the servers disconnected are not connected any more. -/
theorem serverUpdateCid_eq (s : Server) (new : DareCid) : s.updateCid new =
    match updateCid s.cid s.idx new with
    | .unchanged => some s
    | .shutdown _ => none
    | .updated disconnected => some { s with
        cid := new
        connected := fun i => !decide (i ∈ disconnected) && s.connected i } := by
  rw [Server.updateCid, updateCid]
  split
  · rfl
  · have hin : ∀ i, (decide (i < max new.size0.toNat new.size1.toNat) && !cidIsServerOn new i &&
        cidIsServerOn s.cid i) = decide (i ∈ (List.range (cidBound new)).filter (departs s.cid new)) := by
      intro i
      simp only [List.mem_filter, List.mem_range, cidBound, departs, Bool.and_assoc,
        Bool.decide_and, Bool.decide_eq_true]
    dsimp only
    split
    · rename_i hself
      rw [hin, decide_eq_true_eq] at hself
      obtain ⟨hmem, hdeparts⟩ := List.mem_filter.mp hself
      obtain ⟨ds, heq, -⟩ := departureLoop_of_mem hmem hdeparts (forall_departs_nil s.cid new)
      rw [heq]
    · rename_i hself
      rw [hin, decide_eq_true_eq] at hself
      have hnot : s.idx ∈ List.range (cidBound new) → departs s.cid new s.idx = false := by
        intro hmem
        by_contra hdeparts
        exact hself (List.mem_filter.mpr ⟨hmem, Bool.not_eq_false _ ▸ hdeparts⟩)
      rw [departureLoop_of_notMem hnot, List.nil_append]
      simp only [hin]

/-! ### All departures -/

/-- **When every departure is processed**: the server itself is among the slots looked at if it departs,
    and otherwise all servers that depart are. -/
theorem departuresDone_iff (old : DareCid) (idx : Nat) (new : DareCid) :
    DeparturesDone old idx new (updateCid old idx new) ↔
      if departs old new idx then idx < cidBound new
      else ∀ i < MAX_SERVER_COUNT, departs old new i = true → i < cidBound new := by
  have hself (c : DareCid) (i : Nat) : departs c c i = false := by simp [departs]
  by_cases hequal : equalCid old new = true
  · obtain rfl := (equalCid_iff old new).mp hequal
    rw [updateCid, if_pos hequal, hself, if_neg (by simp)]
    refine iff_of_true (hself old) fun i _ hi => ?_
    rw [hself] at hi
    cases hi
  · rw [updateCid, if_neg hequal]
    by_cases hidx : departs old new idx = true
    · rw [if_pos hidx]
      by_cases hlt : idx < cidBound new
      · obtain ⟨ds, heq, hds⟩ := departureLoop_of_mem (List.mem_range.mpr hlt) hidx
          (forall_departs_nil old new)
        rw [heq]
        exact iff_of_true ⟨hidx, hds⟩ hlt
      · -- the server does not come to itself
        rw [departureLoop_of_notMem fun hmem => absurd (List.mem_range.mp hmem) hlt]
        refine iff_of_false ?_ hlt
        rintro ⟨hstays, -, -⟩
        rw [hidx] at hstays
        cases hstays
    · rw [if_neg hidx, departureLoop_of_notMem fun _ => Bool.eq_false_iff.mpr hidx, List.nil_append]
      constructor
      · rintro ⟨-, -, hall⟩ i hi hdeparts
        exact List.mem_range.mp (List.mem_of_mem_filter (hall i hi hdeparts))
      · intro hall
        refine ⟨Bool.eq_false_iff.mpr hidx, fun i hi => (List.mem_filter.mp hi).2, fun i hi hd => ?_⟩
        exact List.mem_filter.mpr ⟨List.mem_range.mpr (hall i hi hd), hd⟩

/-! ### A group that becomes smaller -/

/-- Two of five servers are to leave. -/
def downsizing : DareCid := ⟨0, 5, 3, CID_TRANSIT, 31⟩

/-- Server 0 takes the configuration that follows, and stays connected to servers 3 and 4. -/
theorem not_departuresDone : nextCid downsizing CID_TRANSIT = ⟨0, 3, 0, CID_STABLE, 7⟩ ∧
    ¬DeparturesDone downsizing 0 (nextCid downsizing CID_TRANSIT)
      (updateCid downsizing 0 (nextCid downsizing CID_TRANSIT)) := by
  refine ⟨by decide, fun hdone => ?_⟩
  have hupdate : updateCid downsizing 0 (nextCid downsizing CID_TRANSIT) = .updated [] := by
    decide +kernel
  rw [hupdate] at hdone
  have hmem := hdone.2.2 3 (by decide) (by decide)
  cases hmem

end Apus
