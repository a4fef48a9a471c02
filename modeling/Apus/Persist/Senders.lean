import Apus.Persist.Acks

namespace Apus

open Lib

/-!
# Acknowledgements reach the leader

The sender byte of an entry is not set by the append but when a leader hands the entry over
(`persist_new_entries`), and is copied with the entry.  A follower sends its reply to the sender.

An entry that a server got and handed over as a follower keeps the former leader as its sender when that
server becomes leader and replicates it: the replies go to the former leader
(`not_acks_reach_leader`).  If every leader writes only entries that it handed over since it became
leader, the replies reach it (`acks_reach_leader`).
-/

/-- A call of `persist_new_entries` replies to the leader that the server follows. -/
def AcksLeader (s : AckCluster) (i : ServerIdx) : Prop :=
  ∀ fuel r, persistNewEntries (s.servers i).idx (s.servers i).isLeader fuel (s.servers i).log = some r →
    ∀ v ∈ r.2, ∀ w ∈ v.reply, w.target.toNat = s.leader i

/-- The entries that a walk from `off` visits have `q` as their sender. -/
def SentBy (log : DareLog) (off : Nat) (q : ServerIdx) : Prop :=
  ∀ live stop, readerWalk log (walkFuel log) off = some (live, stop) →
    ∀ entry ∈ live, (getU8 log.entries (entry + SENDER_OFF)).toNat = q

/-- The entries `es` behind `rmtEnd` are the last ones that the leader handed over, since it became
    leader. -/
def HandedOver (s : AckCluster) (q : ServerIdx) (rmtEnd : Nat) (es : List DareLogEntry) : Prop :=
  ∃ vs visited, WalkTo (s.servers q).log (s.servers q).log.head vs rmtEnd ∧
    WalkTo (s.servers q).log rmtEnd visited (s.servers q).log.oldEnd ∧
    visited.map (readEntry (s.servers q).log.entries) = es ∧
    s.since q + es.length ≤ (s.servers q).stored.length

/-- The condition on the steps. -/
def sendersOk (s : AckCluster) (l : AckLabel) : Prop :=
  ackOk s l ∧ match l with
  | .recover i q readOk _ =>
    let log := (rcRecoverLog (s.servers i).log (s.servers q).log readOk).1
    SentBy log log.head (s.leader i)
  | .follow i q => SentBy (s.servers i).log (s.servers i).log.oldEnd q
  | .update q i rmtEnd es => s.leader i = q ∧ HandedOver s q rmtEnd es
  | _ => True

/-! ### Who set the sender -/

/-- The sender of the `k`-th entry. -/
def senderOf (s : AckCluster) (i : ServerIdx) (k : Nat) : Nat :=
  (tag (s.servers i).log (s.servers i).written k SENDER_OFF).toNat

/-- A leader is the sender of what it handed over since it became leader, and the leader is the sender
    of what a follower did not hand over yet. -/
structure SenderInv (s : AckCluster) (i : ServerIdx) : Prop where
  leader : (s.servers i).isLeader = true → s.leader i = i ∧
    s.since i ≤ (s.servers i).stored.length ∧
    ∀ k, s.pruned i ≤ k → s.since i ≤ k → k < (s.servers i).stored.length → senderOf s i k = i
  follower : (s.servers i).recovered = true → (s.servers i).isLeader = false →
    ∀ k, (s.servers i).stored.length ≤ k → k < (s.servers i).written.length →
      senderOf s i k = s.leader i

variable {s s' : AckCluster} {i j q : ServerIdx} {u u' : Nat}

namespace SenderInv

/-- Steps that keep the role of the server, what it handed over and the senders. -/
theorem kept (h : SenderInv s i) (hinv : PersistInv (s'.servers i) (s'.pruned i) u')
    (hrec : (s.servers i).recovered = true)
    (hrole : (s'.servers i).isLeader = (s.servers i).isLeader)
    (hstored : (s'.servers i).stored = (s.servers i).stored) (hleader : s'.leader i = s.leader i)
    (hsince : s'.since i = s.since i) (hpruned : s.pruned i ≤ s'.pruned i)
    (hold : ∀ k, s'.pruned i ≤ k → k < (s'.servers i).written.length →
      k < (s.servers i).written.length → senderOf s' i k = senderOf s i k)
    (hnew : (s.servers i).isLeader = false → ∀ k, (s.servers i).written.length ≤ k →
      k < (s'.servers i).written.length → senderOf s' i k = s.leader i)
    (hcount : (s.servers i).stored.length ≤ (s.servers i).written.length) : SenderInv s' i := by
  have hlo := hinv.lo_le
  have hcount' := hinv.cursor.count_le
  rw [hstored] at hlo hcount'
  refine ⟨fun hlead => ?_, fun _ hfollow k hk hk' => ?_⟩
  · rw [hrole] at hlead
    obtain ⟨hself, hle, hsent⟩ := h.leader hlead
    rw [hleader, hsince, hstored]
    refine ⟨hself, hle, fun k hlo hsince hk => ?_⟩
    rw [hold k hlo (by omega) (by omega)]
    exact hsent k (by omega) hsince hk
  · rw [hrole] at hfollow
    rw [hstored] at hk
    rw [hleader]
    rcases Nat.lt_or_ge k (s.servers i).written.length with hlt | hge
    · rw [hold k (by omega) hk' hlt]
      exact h.follower hrec hfollow k hk hlt
    · exact hnew hfollow k hge hk'

/-- Servers that a step does not change. -/
theorem of_same (h : SenderInv s j) (hserver : s'.servers j = s.servers j)
    (hleader : s'.leader j = s.leader j) (hsince : s'.since j = s.since j)
    (hpruned : s'.pruned j = s.pruned j) : SenderInv s' j := by
  obtain ⟨hlead, hfollow⟩ := h
  constructor
  · simp only [senderOf, hserver, hleader, hsince, hpruned] at hlead ⊢
    exact hlead
  · simp only [senderOf, hserver, hleader] at hfollow ⊢
    exact hfollow

end SenderInv

/-- The senders behind a place. -/
theorem SentBy.sender {t : PersistState} {lo n w off : Nat} (h : SentBy t.log off q)
    (hinv : PersistInv t lo u) (hp : PlaceAt t.log t.written u n w off) :
    ∀ k, n ≤ k → k < t.written.length → (tag t.log t.written k SENDER_OFF).toNat = q := by
  intro k hk hk'
  obtain ⟨live, stop, hwalk, hlive⟩ := hinv.walk_from hp
  refine h live stop hwalk _ ?_
  rw [hlive]
  exact List.mem_map_of_mem (List.mem_range'_1.mpr ⟨hk, by omega⟩)

/-- The invariant of the runs. -/
structure SendersSafe (s : AckCluster) : Prop where
  safe : AckSafe s
  sender : ∀ i, SenderInv s i

namespace SendersSafe

/-- A leader is recovered. -/
theorem recovered_of_leader (h : SendersSafe s) (hlead : (s.servers i).isLeader = true) :
    (s.servers i).recovered = true := by
  cases hrec : (s.servers i).recovered with
  | true => rfl
  | false =>
    obtain ⟨-, hfollower, -⟩ := (h.safe.server i).joining hrec
    exact absurd (hfollower.symm.trans hlead) (by decide)

/-- What a leader handed over since it became leader. -/
theorem sender_of_handedOver {rmtEnd : Nat} {es : List DareLogEntry} (h : SendersSafe s)
    (hinv : PersistInv (s.servers i) (s.pruned i) u) (hlead : (s.servers q).isLeader = true)
    (hok : UpdateOk (s.servers i) (s.servers q).log rmtEnd es) (hover : HandedOver s q rmtEnd es) :
    ∀ k, k < es.length →
      (tag (copied (s.servers i).log (s.servers q).log.entries rmtEnd (s.servers q).log.end_)
        ((s.servers i).written ++ es) ((s.servers i).written.length + k) SENDER_OFF).toNat = q := by
  intro k hk
  obtain ⟨vs, visited, hstart, hwalk, hes, hsince⟩ := hover
  obtain ⟨u', hq⟩ := (h.safe.server q).window (h.recovered_of_leader hlead)
  obtain ⟨-, -, hsent⟩ := (h.sender q).leader hlead
  have hlen : (s.servers q).log.len = (s.servers i).log.len := by
    rw [(h.safe.server q).len, (h.safe.server i).len]
  obtain ⟨a, w, hw, hlo, hsame⟩ := hinv.update_from hq hlen hok hstart hwalk hes
  -- the walk ends behind what was handed over
  have hcount : a + es.length = (s.servers q).stored.length := hw.count_eq hq.window hq.cursor
  obtain ⟨-, -, htag⟩ := hsame k hk
  rw [htag _ (by decide)]
  exact hsent (a + k) (by omega) (by omega) (by omega)

/-- A step of one server that keeps its role, what it handed over and the senders. -/
theorem keep {t : PersistState} (h : SendersSafe s) (hs' : AckSafe s')
    (hservers : s'.servers = Function.update s.servers i t) (hrec : (s.servers i).recovered = true)
    (hrec' : t.recovered = true) (hrole : t.isLeader = (s.servers i).isLeader)
    (hstored : t.stored = (s.servers i).stored) (hleader : s'.leader = s.leader)
    (hsince : s'.since = s.since) (hpruned : s.pruned i ≤ s'.pruned i)
    (hother : ∀ j, j ≠ i → s'.pruned j = s.pruned j)
    (hold : ∀ u, PersistInv (s.servers i) (s.pruned i) u → ∀ k, s.pruned i ≤ k →
      k < t.written.length → k < (s.servers i).written.length →
      tag t.log t.written k SENDER_OFF =
        tag (s.servers i).log (s.servers i).written k SENDER_OFF)
    (hnew : ∀ u, PersistInv (s.servers i) (s.pruned i) u → (s.servers i).isLeader = false →
      ∀ k, (s.servers i).written.length ≤ k → k < t.written.length →
      (tag t.log t.written k SENDER_OFF).toNat = s.leader i) : SendersSafe s' := by
  have hself : s'.servers i = t := by rw [hservers, Function.update_self]
  refine ⟨hs', fun j => ?_⟩
  by_cases hj : j = i
  · subst hj
    obtain ⟨u, hinv⟩ := (h.safe.server j).window hrec
    obtain ⟨u', hinv'⟩ := (hs'.server j).window (by rw [hself]; exact hrec')
    refine (h.sender j).kept hinv' hrec (by rw [hself]; exact hrole) (by rw [hself]; exact hstored)
      (by rw [hleader]) (by rw [hsince]) hpruned ?_ ?_ hinv.cursor.count_le
    · intro k hlo hk hk'
      simp only [senderOf, hself] at hk ⊢
      rw [hold u hinv k (by omega) hk hk']
    · intro hrole k hk hk'
      simp only [senderOf, hself] at hk' ⊢
      exact hnew u hinv hrole k hk hk'
  · refine (h.sender j).of_same ?_ (by rw [hleader]) (by rw [hsince]) (hother j hj)
    rw [hservers, Function.update_of_ne hj]

/-- A step after which the senders of one server are known. -/
theorem renew {t : PersistState} (h : SendersSafe s) (hs' : AckSafe s')
    (hservers : s'.servers = Function.update s.servers i t)
    (hleader : ∀ j, j ≠ i → s'.leader j = s.leader j)
    (hsince : ∀ j, j ≠ i → s'.since j = s.since j) (hpruned : s'.pruned = s.pruned)
    (hi : SenderInv s' i) : SendersSafe s' := by
  refine ⟨hs', fun j => ?_⟩
  by_cases hj : j = i
  · rw [hj]
    exact hi
  · refine (h.sender j).of_same ?_ (hleader j hj) (hsince j hj) (by rw [hpruned])
    rw [hservers, Function.update_of_ne hj]

/-- The call of `persist_new_entries`. -/
theorem persist {fuel : Nat} {r : DareLog × List Visit} (h : SendersSafe s) (hs' : AckSafe s')
    (hrec : (s.servers i).recovered = true)
    (hcall : persistNewEntries (s.servers i).idx (s.servers i).isLeader fuel (s.servers i).log =
      some r)
    (hs : s' = { s.set i { s.servers i with
        log := r.1, stored := (s.servers i).stored ++ r.2.map fun v => detKey v.det } with
      flight := s.flight ++ posted i r.2 }) : SendersSafe s' := by
  obtain ⟨u, hinv⟩ := (h.safe.server i).window hrec
  have hall := hinv.persist_length hcall
  have hidx := (h.safe.server i).idx
  subst hs
  refine h.renew (i := i) hs' rfl (fun _ _ => rfl) (fun _ _ => rfl) rfl ⟨fun hlead => ?_, ?_⟩
  all_goals simp only [AckCluster.set, Function.update_self, senderOf] at *
  · obtain ⟨hself, hle, hsent⟩ := (h.sender i).leader hlead
    have hcount := hinv.cursor.count_le
    refine ⟨hself, by omega, fun k hlo hsince hk => ?_⟩
    rcases Nat.lt_or_ge k (s.servers i).stored.length with hlt | hge
    · -- what was handed over before keeps its sender
      rcases hinv.persist_tag hcall hlo (by omega) (show SENDER_OFF < ENTRY_SIZE by decide) with
        hsame | ⟨-, hge, -⟩
      · rw [hsame]
        exact hsent k hlo hsince hlt
      · omega
    · -- what is handed over now gets the stamp of this server
      have hstamp := hinv.persist_stamp hcall hge (by omega)
      rw [hlead, hidx] at hstamp
      simp only [stampOff, stamp, if_true] at hstamp
      have hlt : (i : Nat) < UInt8.size := i.isLt.trans (by decide)
      rw [hstamp, UInt8.toNat_ofNat_of_lt' hlt]
  · intro _ _ k hk hk'
    omega

/-- Every step under the condition keeps the senders. -/
theorem step {l : AckLabel} (h : SendersSafe s) (hok : sendersOk s l) (hs : ackStep s l s') :
    SendersSafe s' := by
  obtain ⟨hack, hok⟩ := hok
  have hs' := h.safe.step hack hs
  cases l with
  | own i l =>
    obtain ⟨hown, t, ht, rfl⟩ := hs
    cases l with
    | start =>
      obtain ⟨hrec, -, -, rfl⟩ := ht
      obtain ⟨hjoin, hfollower, -⟩ := (h.safe.server i).joining hrec
      refine h.renew (i := i) hs' rfl (fun _ _ => rfl) (fun _ _ => rfl) rfl ⟨fun hlead => ?_, ?_⟩
      all_goals simp only [AckCluster.set, Function.update_self] at *
      · rw [hfollower] at hlead
        cases hlead
      · intro _ _ k _ hk
        simp at hk
    | resetTail =>
      obtain ⟨hrec, -, rfl⟩ := ht
      exact h.keep hs' rfl hrec hrec rfl rfl rfl rfl (le_refl _) (fun _ _ => rfl)
        (fun _ _ _ _ _ _ => rfl) fun _ _ _ _ hk hk' => absurd hk' (Nat.not_lt.mpr hk)
    | append term reqId cltId type data =>
      obtain ⟨hrec, hlead, log, idx, happend, rfl⟩ := ht
      refine h.keep hs' rfl hrec hrec rfl rfl rfl rfl (le_refl _) (fun _ _ => rfl) ?_ ?_
      · intro u hinv k hlo hk hk'
        obtain ⟨es, hes, hold, -⟩ := hinv.append_tag hack happend
        simp only [hes]
        exact hold k hlo hk' SENDER_OFF (by decide)
      · -- only a leader appends
        intro u hinv hfollow
        rw [hlead] at hfollow
        cases hfollow
    | setCommit off =>
      obtain ⟨hrec, rfl⟩ := ht
      exact h.keep hs' rfl hrec hrec rfl rfl rfl rfl (le_refl _) (fun _ _ => rfl)
        (fun _ _ _ _ _ _ => rfl) fun _ _ _ _ hk hk' => absurd hk' (Nat.not_lt.mpr hk)
    | setApply off =>
      obtain ⟨hrec, rfl⟩ := ht
      exact h.keep hs' rfl hrec hrec rfl rfl rfl rfl (le_refl _) (fun _ _ => rfl)
        (fun _ _ _ _ _ _ => rfl) fun _ _ _ _ hk hk' => absurd hk' (Nat.not_lt.mpr hk)
    | _ => exact hown.elim
  | join i q =>
    obtain ⟨-, hrec, rfl⟩ := hs
    obtain ⟨-, hfollower, -⟩ := (h.safe.server i).joining hrec
    refine ⟨hs', fun j => ?_⟩
    by_cases hj : j = i
    · subst hj
      constructor
      · intro hlead
        exact absurd (hfollower.symm.trans hlead) (by decide)
      · intro hrec'
        exact absurd (hrec.symm.trans hrec') (by decide)
    · exact (h.sender j).of_same rfl (Function.update_of_ne hj _ _) rfl rfl
  | recover i q readOk es =>
    obtain ⟨-, -, t, ⟨hrec, rfl⟩, rfl⟩ := hs
    obtain ⟨hjoin, hfollower, hzero⟩ := (h.safe.server i).joining hrec
    refine h.renew (i := i) hs' rfl (fun _ _ => rfl) (fun _ _ => rfl) rfl ⟨fun hlead => ?_, ?_⟩
    · simp only [AckCluster.set, Function.update_self] at hlead
      exact absurd (hfollower.symm.trans hlead) (by decide)
    · -- the entries have the senders that the other server has written
      intro hdone _ k _ hk
      obtain ⟨u, hinv⟩ := (hs'.server i).window hdone
      simp only [AckCluster.set, Function.update_self, senderOf] at hinv hk ⊢
      exact SentBy.sender hok hinv hinv.headPlace k (by omega) hk
  | lead i =>
    obtain ⟨t, ⟨hrec, rfl⟩, rfl⟩ := hs
    refine h.renew (i := i) hs' rfl (fun j hj => Function.update_of_ne hj _ _)
      (fun j hj => Function.update_of_ne hj _ _) rfl ⟨fun _ => ?_, ?_⟩
    all_goals simp only [AckCluster.set, Function.update_self]
    · refine ⟨trivial, le_refl _, fun k _ hsince hk => ?_⟩
      omega
    · intro _ hfollow
      cases hfollow
  | follow i q =>
    obtain ⟨-, t, ⟨hrec, rfl⟩, rfl⟩ := hs
    obtain ⟨u, hinv⟩ := (h.safe.server i).window hrec
    refine h.renew (i := i) hs' rfl (fun j hj => Function.update_of_ne hj _ _) (fun _ _ => rfl) rfl
      ⟨?_, fun _ _ => ?_⟩
    all_goals simp only [AckCluster.set, Function.update_self, senderOf]
    · intro hlead
      cases hlead
    · exact SentBy.sender hok hinv hinv.cursor
  | update q i rmtEnd es =>
    obtain ⟨-, hlead, t, ⟨hrec, rfl⟩, rfl⟩ := hs
    obtain ⟨hleader, hover⟩ := hok
    refine h.keep hs' rfl hrec hrec rfl rfl rfl rfl (le_refl _) (fun _ _ => rfl) ?_ ?_
    · intro u hinv k hlo _ hk
      exact hinv.update_tag hack hlo hk (by decide)
    · intro u hinv _ k hk hk'
      obtain ⟨m, rfl⟩ := Nat.exists_eq_add_of_le hk
      rw [hleader]
      rw [List.length_append] at hk'
      -- the leader has handed over what it sends
      exact h.sender_of_handedOver hinv hlead hack hover m (by omega)
  | adjust q i off n =>
    obtain ⟨-, -, t, ⟨hrec, rfl⟩, rfl⟩ := hs
    refine h.keep hs' rfl hrec hrec rfl rfl rfl rfl (le_refl _) (fun _ _ => rfl) ?_ ?_
    · -- the entries before the new end are the same
      intro u hinv k _ hk _
      rw [List.length_take] at hk
      exact tag_take (by omega)
    · intro u hinv _ k hk hk'
      rw [List.length_take] at hk'
      omega
  | prune i visited off =>
    obtain ⟨t, ⟨hrec, rfl⟩, rfl⟩ := hs
    refine h.keep hs' rfl hrec hrec rfl rfl rfl rfl ?_ (fun j hj => Function.update_of_ne hj _ _)
      (fun _ _ _ _ _ _ => rfl) fun _ _ _ _ hk hk' => absurd hk' (Nat.not_lt.mpr hk)
    simp
  | persist i =>
    obtain ⟨hrec, fuel, r, hcall, hs⟩ := hs
    exact h.persist hs' hrec hcall hs
  | land n p =>
    obtain ⟨r, hr, -, rfl⟩ := hs
    obtain ⟨hrec, hlive⟩ := hack
    obtain ⟨hserver, live, stop, hwalk, hentry⟩ := hlive r hr
    refine h.keep hs' rfl hrec hrec rfl rfl rfl rfl (le_refl _) (fun _ _ => rfl) ?_
      fun _ _ _ _ hk hk' => absurd hk' (Nat.not_lt.mpr hk)
    intro u hinv k hlo _ hk
    -- a reply byte is not the byte of the sender
    have hset := hinv.reply_tag hserver hwalk hentry (b := 1) hlo hk
      (show SENDER_OFF < ENTRY_SIZE by decide)
    rw [h.safe.reply r (List.mem_of_getElem? hr)]
    rcases hset with hsame | ⟨-, hcon, -⟩
    · exact hsame
    · simp only [SENDER_OFF, REPLY_OFF] at hcon
      omega
  | lose n =>
    obtain rfl := hs
    exact ⟨hs', fun j => (h.sender j).of_same rfl rfl rfl rfl⟩

theorem init (h : ackInit s) : SendersSafe s := by
  refine ⟨AckSafe.init h, fun i => ?_⟩
  obtain ⟨⟨-, -, hfollower, hrec, -, -⟩, -⟩ := h.1 i
  constructor
  · intro hlead
    exact absurd (hfollower.symm.trans hlead) (by decide)
  · intro hrec'
    exact absurd (hrec.symm.trans hrec') (by decide)

theorem acksLeader (h : SendersSafe s) (hrec : (s.servers i).recovered = true) :
    AcksLeader s i := by
  intro fuel r hcall v hv w hw
  obtain ⟨u, hinv⟩ := (h.safe.server i).window hrec
  obtain ⟨hfollower, k, hk, hk', htarget⟩ := hinv.persist_reply hcall hv hw
  rw [htarget]
  exact (h.sender i).follower hrec hfollower k hk hk'

end SendersSafe

/-- **Acknowledgements reach the leader**, in every run in which each leader writes only entries that it
    handed over since it became leader. -/
theorem acks_reach_leader (h : Reach ackInit ackStep sendersOk s)
    (hrec : (s.servers i).recovered = true) : AcksLeader s i :=
  (h.invariant (fun _ => SendersSafe.init) fun _ _ _ hinv hok hs => hinv.step hok hs).acksLeader hrec

/-! ### An entry of a former leader -/

section Examples

/-- The log of a leader with one entry, before and after it is handed over. -/
def oneEntry : DareLog := ((logAppendEntry logNew 1 0 0 NOOP default).map Prod.fst).getD logNew

def stamped : DareLog := ((persistNewEntries 1 true 2 oneEntry).map Prod.fst).getD logNew

/-- The log of a server that gets the entry, before and after it is handed over. -/
def copyOf (log : DareLog) : DareLog :=
  { logNew with entries := ringCopy logNew.len logNew.entries log.entries 0 log.end_, end_ := log.end_ }

def handedOver : DareLog := ((persistNewEntries 0 false 2 (copyOf stamped)).map Prod.fst).getD logNew

theorem append_oneEntry : logAppendEntry logNew 1 0 0 NOOP default = some (oneEntry, 1) := rfl

theorem persist_oneEntry : ∃ visits, persistNewEntries 1 true 2 oneEntry = some (stamped, visits) ∧
    visits.map (fun v => detKey v.det) = [(1, 1)] := by
  have hrun : (persistNewEntries 1 true 2 oneEntry).map (fun r => r.2.map fun v => detKey v.det) =
      some [(1, 1)] := by decide +kernel
  obtain ⟨r, hr, hkeys⟩ := Option.map_eq_some_iff.mp hrun
  exact ⟨r.2, by rw [stamped, hr]; rfl, hkeys⟩

theorem chain_stamped : Chain entryFormat stamped.entries LOG_SIZE 0 [noop 1] := by
  rw [chain_singleton]
  have hread : readEntry stamped.entries 0 = noop 1 := by decide +kernel
  exact ⟨by decide, hread, fun _ hnot => absurd hnot (by decide)⟩

theorem walk_stamped : WalkTo stamped 0 [0] stamped.oldEnd := by
  have hget : logGetEntry stamped 0 = some 0 := by decide +kernel
  have hfit : logFitEntry stamped 0 0 = true := by decide +kernel
  have hold : stamped.oldEnd = 0 + logEntryLen stamped.entries 0 := by decide +kernel
  rw [hold]
  exact .visit hget hfit (.refl _)

/-- A cluster of new servers. -/
def freshServers : AckCluster where
  servers := fun i => ⟨logNew, i, false, false, [], []⟩
  leader := fun _ => 0
  since := fun _ => 0
  pruned := fun _ => 0
  flight := []

theorem ackInit_freshServers : ackInit freshServers :=
  ⟨fun i => ⟨⟨⟨0, 0, rfl⟩, i.isLt, rfl, rfl, rfl, rfl⟩, rfl, rfl, rfl⟩, rfl⟩

/-- Server 1 becomes leader, hands an entry over and writes it to the log of server 0. -/
theorem reach_replicated : ∃ s, Reach ackInit ackStep sendersOk s ∧
    s.servers 0 = ⟨copyOf stamped, 0, false, true, [], [noop 1]⟩ ∧
    s.servers 2 = ⟨logNew, 2, false, false, [], []⟩ ∧ s.leader 0 = 1 := by
  obtain ⟨visits, hcall, hkeys⟩ := persist_oneEntry
  have hinit : Reach ackInit ackStep sendersOk freshServers := .start ackInit_freshServers
  have hstart₁ := hinit.step (l := AckLabel.own 1 .start) ⟨trivial, trivial⟩
    ⟨trivial, _, ⟨rfl, rfl, rfl, rfl⟩, rfl⟩
  have hstart₀ := hstart₁.step (l := AckLabel.own 0 .start) ⟨trivial, trivial⟩
    ⟨trivial, _, ⟨rfl, rfl, rfl, rfl⟩, rfl⟩
  have hlead := hstart₀.step (l := AckLabel.lead 1) ⟨trivial, trivial⟩ ⟨_, ⟨rfl, rfl⟩, rfl⟩
  have hroom : AppendRoom logNew NOOP default := by
    unfold AppendRoom
    decide
  have happend := hlead.step (l := AckLabel.own 1 (.append 1 0 0 NOOP default))
    ⟨⟨hroom, by decide, by decide, ⟨[], .refl _⟩, ⟨[], .refl _⟩, nofun⟩, trivial⟩
    ⟨trivial, _, ⟨rfl, rfl, _, _, append_oneEntry, rfl⟩, rfl⟩
  have hpersist := happend.step (l := AckLabel.persist 1) ⟨trivial, trivial⟩ ⟨rfl, 2, _, hcall, rfl⟩
  have hnone : SentBy logNew logNew.oldEnd 1 := by
    intro live stop hwalk
    rw [walkFuel, readerWalk, logGetEntry_of_end_eq_len rfl] at hwalk
    obtain ⟨rfl, -⟩ := Prod.mk.inj (Option.some.inj hwalk)
    simp
  have hfollow := hpersist.step (l := AckLabel.follow 0 1) ⟨trivial, hnone⟩
    ⟨by decide, _, ⟨rfl, rfl⟩, rfl⟩
  have hok : UpdateOk ⟨logNew, 0, false, true, [], []⟩ stamped 0 [noop 1] :=
    ⟨rfl, by decide, by simp, chain_stamped, by decide +kernel, by decide +kernel,
      List.pairwise_singleton _ _⟩
  have hcount : 0 + 1 ≤ ([] ++ visits.map fun v => detKey v.det : List (UInt64 × UInt64)).length := by
    rw [hkeys]
    exact le_refl _
  have hread : [0].map (readEntry stamped.entries) = [noop 1] := by decide +kernel
  have hupdate := hfollow.step (l := AckLabel.update 1 0 0 [noop 1])
    ⟨hok, rfl, [], [0], .refl _, walk_stamped, hread, hcount⟩
    ⟨by decide, rfl, _, ⟨rfl, rfl⟩, rfl⟩
  exact ⟨_, hupdate, rfl, rfl, rfl⟩

/-- The reply of server 0 goes to server 1. -/
theorem acks_reach_leader_one : ∃ s, Reach ackInit ackStep sendersOk s ∧ s.leader 0 = 1 ∧
    (∃ fuel r, persistNewEntries (s.servers 0).idx (s.servers 0).isLeader fuel (s.servers 0).log =
      some r ∧ r.2.map (fun v => detKey v.det) = [(1, 1)]) ∧ AcksLeader s 0 := by
  obtain ⟨s, hreach, hself, -, hleader⟩ := reach_replicated
  refine ⟨s, hreach, hleader, ?_, acks_reach_leader hreach (by rw [hself])⟩
  have hrun : (persistNewEntries 0 false 2 (copyOf stamped)).map (fun r =>
      r.2.map fun v => detKey v.det) = some [(1, 1)] := by decide +kernel
  rw [hself]
  obtain ⟨r, hr, hkeys⟩ := Option.map_eq_some_iff.mp hrun
  exact ⟨2, r, hr, hkeys⟩

/-- Server 0 becomes leader and writes the entry to the log of server 2, whose reply goes to server 1. -/
theorem not_acks_reach_leader : ¬ ∀ s i, Reach ackInit ackStep Always s →
    (s.servers i).recovered = true → AcksLeader s i := by
  intro hall
  obtain ⟨s, hreach, hself, hjoin, -⟩ := reach_replicated
  have hrun : (persistNewEntries 0 false 2 (copyOf stamped)).map (fun r => r.2.length) = some 1 := by
    decide +kernel
  obtain ⟨r, hcall, -⟩ := Option.map_eq_some_iff.mp hrun
  have hlog : handedOver = r.1 := by
    rw [handedOver, hcall]
    rfl
  have hany : Reach ackInit ackStep Always s := hreach.mono fun _ _ _ => trivial
  have hpersist := hany.step (l := AckLabel.persist 0) trivial
    ⟨by rw [hself], 2, r, by rw [hself]; exact hcall, rfl⟩
  have hlead := hpersist.step (l := AckLabel.lead 0) trivial
    ⟨_, ⟨by simp [AckCluster.set, hself], rfl⟩, rfl⟩
  obtain ⟨s₂, hreach₂, hold, hrole, hjoin₂⟩ : ∃ s₂, Reach ackInit ackStep Always s₂ ∧
      (s₂.servers 0).log = handedOver ∧ (s₂.servers 0).isLeader = true ∧
      s₂.servers 2 = ⟨logNew, 2, false, false, [], []⟩ :=
    ⟨_, hlead, by simp [AckCluster.set, hlog], by simp [AckCluster.set],
      by simp [AckCluster.set, hjoin]⟩
  -- server 2 gets the entry
  have hstart := hreach₂.step (l := AckLabel.own 2 .start) trivial
    ⟨trivial, _, ⟨by rw [hjoin₂], by rw [hjoin₂]; rfl, by rw [hjoin₂]; rfl, rfl⟩, rfl⟩
  have hfollow := hstart.step (l := AckLabel.follow 2 0) trivial
    ⟨by decide, _, ⟨by simp [AckCluster.set], rfl⟩, rfl⟩
  have hupdate := hfollow.step (l := AckLabel.update 0 2 0 [noop 1]) trivial
    ⟨by decide, by simp [AckCluster.set, hrole], _, ⟨by simp [AckCluster.set], rfl⟩, rfl⟩
  have hacks := hall _ 2 hupdate (by simp [AckCluster.set])
  have hreply : (persistNewEntries 2 false 2 (copyOf handedOver)).map (fun r =>
      r.2.map fun v => v.reply.map fun w => w.target.toNat) = some [some 1] := by decide +kernel
  obtain ⟨r', hcall', htargets⟩ := Option.map_eq_some_iff.mp hreply
  have hto := hacks 2 r' (by simpa [AckCluster.set, hold, hjoin₂, copyOf] using hcall')
  simp only [AckCluster.set, Function.update_self] at hto
  obtain ⟨v, hv, htarget⟩ := List.mem_map.mp (htargets ▸ List.mem_singleton_self (some 1))
  obtain ⟨w, hw, hone⟩ := Option.map_eq_some_iff.mp htarget
  have hzero := hto v hv w hw
  rw [hone] at hzero
  cases hzero

end Examples

end Apus
