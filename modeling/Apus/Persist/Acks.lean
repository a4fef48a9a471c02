import Apus.Persist.Bookkeeping
import Apus.Log.Full

namespace Apus

open Lib

/-!
# Acknowledgements between the servers

A follower acknowledges an entry with a write to the log of the server that the entry names as its
sender (`rc_send_entries_reply`).  Here every server of the group has a log of its own, a server that
is leader writes the logs of the others and sets their ends, and the reply writes are on their way until
they take effect (`land`) or are lost.

A run is any sequence of the steps of all the servers, with any number of leader changes.  Besides the
servers, the state carries the server each of them follows, and what the conditions are about: how many
entries a server had handed over when it last became leader, and how many its `head` went past.

* `AckSafe` — every log is a window of the entries written to it, in every run whose steps meet the
  condition of the persist cursor (`AckSafe.step`).
-/

/-! ### The servers -/

/-- The index of a server. -/
abbrev ServerIdx := Fin MAX_SERVER_COUNT

instance : NeZero MAX_SERVER_COUNT := ⟨by decide⟩

/-- A reply write that was posted: the server that made it, and the entry it is for. -/
structure PostedReply where
  server : ServerIdx
  write : ReplyWrite
  det : DareLogEntryDet

structure AckCluster where
  servers : ServerIdx → PersistState
  /-- The leader that is part of the SID of a server. -/
  leader : ServerIdx → ServerIdx
  /-- The number of entries that a server had handed over when it last became leader. -/
  since : ServerIdx → Nat
  /-- The number of entries that `head` went past. -/
  pruned : ServerIdx → Nat
  /-- The reply writes on their way. -/
  flight : List PostedReply

/-- The state in which a server has changed. -/
def AckCluster.set (s : AckCluster) (i : ServerIdx) (t : PersistState) : AckCluster :=
  { s with servers := Function.update s.servers i t }

/-- The reply writes of a call of `persist_new_entries`. -/
def posted (i : ServerIdx) (visits : List Visit) : List PostedReply :=
  visits.filterMap fun v => v.reply.map fun w => ⟨i, w, v.det⟩

/-! ### The steps -/

inductive AckLabel
  /-- A step of a server on its own log, or a commit offset written to it. -/
  | own (i : ServerIdx) (l : PersistLabel)
  /-- The JOIN reply names the leader. -/
  | join (i q : ServerIdx)
  /-- `rc_recover_log` reads the log of `q`. -/
  | recover (i q : ServerIdx) (readOk : Bool) (es : List DareLogEntry)
  /-- The server becomes leader. -/
  | lead (i : ServerIdx)
  /-- The server starts to follow `q`. -/
  | follow (i q : ServerIdx)
  /-- The leader `q` writes the entries `es` to the log of `i`. -/
  | update (q i : ServerIdx) (rmtEnd : Nat) (es : List DareLogEntry)
  /-- The leader `q` sets the end of the log of `i`. -/
  | adjust (q i : ServerIdx) (off n : Nat)
  /-- The server advances `head` past the entries visited. -/
  | prune (i : ServerIdx) (visited : List Nat) (off : Nat)
  | persist (i : ServerIdx)
  /-- A reply write takes effect in the log of `p`. -/
  | land (n : Nat) (p : ServerIdx)
  | lose (n : Nat)

/-- The steps of a server on its own log. -/
def IsOwn : PersistLabel → Prop
  | .start | .resetTail | .append .. | .setCommit _ | .setApply _ => True
  | _ => False

def ackInit (s : AckCluster) : Prop :=
  (∀ i, persistInit (s.servers i) ∧ (s.servers i).idx = i ∧ s.since i = 0 ∧ s.pruned i = 0) ∧
    s.flight = []

/-- One step. -/
def ackStep (s : AckCluster) : AckLabel → AckCluster → Prop
  | .own i l, s' => IsOwn l ∧ ∃ t, persistStep (s.servers i) l t ∧ s' = s.set i t
  | .join i q, s' => i ≠ q ∧ (s.servers i).recovered = false ∧
      s' = { s with leader := Function.update s.leader i q }
  | .recover i q readOk es, s' => i ≠ q ∧ (s.servers q).recovered = true ∧
      ∃ t, persistStep (s.servers i) (.recover (s.servers q).log readOk es) t ∧ s' = s.set i t
  | .lead i, s' => ∃ t, persistStep (s.servers i) .lead t ∧ s' = { s.set i t with
      leader := Function.update s.leader i i
      since := Function.update s.since i (s.servers i).stored.length }
  | .follow i q, s' => i ≠ q ∧ ∃ t, persistStep (s.servers i) .follow t ∧ s' = { s.set i t with
      leader := Function.update s.leader i q }
  | .update q i rmtEnd es, s' => i ≠ q ∧ (s.servers q).isLeader = true ∧
      ∃ t, persistStep (s.servers i) (.update (s.servers q).log rmtEnd es) t ∧ s' = s.set i t
  | .adjust q i off n, s' => i ≠ q ∧ (s.servers q).isLeader = true ∧
      ∃ t, persistStep (s.servers i) (.adjust off n) t ∧ s' = s.set i t
  | .prune i visited off, s' => ∃ t, persistStep (s.servers i) (.prune off) t ∧ s' = { s.set i t with
      pruned := Function.update s.pruned i (s.pruned i + visited.length) }
  | .persist i, s' => (s.servers i).recovered = true ∧ ∃ fuel r,
      persistNewEntries (s.servers i).idx (s.servers i).isLeader fuel (s.servers i).log = some r ∧
      s' = { s.set i { s.servers i with
          log := r.1, stored := (s.servers i).stored ++ r.2.map fun v => detKey v.det } with
        flight := s.flight ++ posted i r.2 }
  | .land n p, s' => ∃ r, s.flight[n]? = some r ∧ r.write.target.toNat = p ∧
      s' = { s.set p { s.servers p with log := { (s.servers p).log with
          entries := setU8 (s.servers p).log.entries r.write.offset 1 } } with
        flight := s.flight.eraseIdx n }
  | .lose n, s' => s' = { s with flight := s.flight.eraseIdx n }

/-- The condition of the persist cursor on the steps.  A reply write takes effect where its entry is
    still in the log. -/
def ackOk (s : AckCluster) : AckLabel → Prop
  | .own i l => persistOk (s.servers i) l
  | .recover i q readOk es => persistOk (s.servers i) (.recover (s.servers q).log readOk es)
  | .update q i rmtEnd es => persistOk (s.servers i) (.update (s.servers q).log rmtEnd es)
  | .adjust _ i off n => persistOk (s.servers i) (.adjust off n)
  | .prune i visited off => persistOk (s.servers i) (.prune off) ∧
      WalkTo (s.servers i).log (s.servers i).log.head visited off
  | .land n p => (s.servers p).recovered = true ∧ ∀ r, s.flight[n]? = some r →
      persistOk (s.servers p) (.reply r.det.offset r.server 1)
  | _ => True

/-! ### Every log is a window -/

/-- A server of the cluster: it is still joining, or its log is a window. -/
structure ServerInv (s : AckCluster) (i : ServerIdx) : Prop where
  idx : (s.servers i).idx = i
  len : (s.servers i).log.len = LOG_SIZE
  joining : (s.servers i).recovered = false →
    Joining (s.servers i) ∧ (s.servers i).isLeader = false ∧ s.pruned i = 0
  window : (s.servers i).recovered = true → ∃ u, PersistInv (s.servers i) (s.pruned i) u

/-- The invariant: of the servers, and of the reply writes. -/
structure AckSafe (s : AckCluster) : Prop where
  server : ∀ i, ServerInv s i
  reply : ∀ r ∈ s.flight, r.write.offset = r.det.offset + REPLY_OFF + r.server

variable {s s' : AckCluster} {i j : ServerIdx}

/-- A step of a server keeps its index and the size of its log. -/
theorem persistStep_frame {s t : PersistState} {l : PersistLabel} (hlen : ENTRY_SIZE ≤ s.log.len)
    (hs : persistStep s l t) : t.idx = s.idx ∧ t.log.len = s.log.len := by
  cases l with
  | start =>
    obtain ⟨-, -, -, rfl⟩ := hs
    exact ⟨rfl, rfl⟩
  | recover target readOk es =>
    obtain ⟨-, rfl⟩ := hs
    refine ⟨rfl, ?_⟩
    show (rcRecoverLog s.log target readOk).1.len = s.log.len
    rw [rcRecoverLog]
    cases readOk <;> split <;> rfl
  | append term reqId cltId type data =>
    obtain ⟨-, -, log, idx, happend, rfl⟩ := hs
    obtain ⟨_, -, hcreated⟩ := logAppendEntry_created hlen happend
    exact ⟨rfl, hcreated.len⟩
  | resetTail =>
    obtain ⟨-, -, rfl⟩ := hs
    exact ⟨rfl, rfl⟩
  | persist =>
    obtain ⟨-, fuel, r, hcall, rfl⟩ := hs
    exact ⟨rfl, persistNewEntries_len hcall⟩
  | _ =>
    obtain ⟨-, rfl⟩ := hs
    exact ⟨rfl, rfl⟩

/-- A server is a leader or a follower once it is recovered. -/
theorem persistStep_isLeader {s t : PersistState} {l : PersistLabel} (hrec : s.recovered = false)
    (hs : persistStep s l t) : t.isLeader = s.isLeader := by
  cases l with
  | start =>
    obtain ⟨-, -, -, rfl⟩ := hs
    rfl
  | recover =>
    obtain ⟨-, rfl⟩ := hs
    rfl
  | _ => exact absurd (hs.1.symm.trans hrec) (by decide)

namespace ServerInv

theorem hdr_le (h : ServerInv s i) : ENTRY_SIZE ≤ (s.servers i).log.len := by
  rw [h.len]
  decide

/-- A step of the server, other than pruning. -/
theorem step {l : PersistLabel} {t : PersistState} (h : ServerInv s i)
    (hprune : ∀ off, l ≠ .prune off) (hok : persistOk (s.servers i) l)
    (hs : persistStep (s.servers i) l t) (ht : s'.servers i = t) (hp : s'.pruned i = s.pruned i) :
    ServerInv s' i := by
  subst ht
  obtain ⟨hidx, hlen⟩ := persistStep_frame h.hdr_le hs
  cases hrec : (s.servers i).recovered with
  | false =>
    obtain ⟨hjoin, hfollower, hzero⟩ := h.joining hrec
    have hstep := hjoin.step hok hs
    refine ⟨hidx.trans h.idx, hlen.trans h.len, fun hrec' => ?_, fun hrec' => ?_⟩
    · rcases hstep with hjoin' | ⟨hdone, -⟩
      · exact ⟨hjoin', (persistStep_isLeader hrec hs).trans hfollower, hp.trans hzero⟩
      · exact absurd (hrec'.symm.trans hdone) (by decide)
    · rcases hstep with hjoin' | ⟨-, hinv⟩
      · exact absurd (hjoin'.recovered.symm.trans hrec') (by decide)
      · rw [hp, hzero]
        exact ⟨0, hinv⟩
  | true =>
    obtain ⟨u, hinv⟩ := h.window hrec
    obtain ⟨hrec', hinv'⟩ := hinv.step hrec hprune hok hs
    refine ⟨hidx.trans h.idx, hlen.trans h.len, fun hcon => ?_, fun _ => ?_⟩
    · exact absurd (hcon.symm.trans hrec') (by decide)
    · rw [hp]
      exact ⟨u, hinv'⟩

theorem of_same (h : ServerInv s i) (ht : s'.servers i = s.servers i) (hp : s'.pruned i = s.pruned i) :
    ServerInv s' i := by
  refine ⟨?_, ?_, ?_, ?_⟩
  · rw [ht]
    exact h.idx
  · rw [ht]
    exact h.len
  · rw [ht, hp]
    exact h.joining
  · rw [ht, hp]
    exact h.window

end ServerInv

namespace AckSafe

/-- The servers after one of them has changed. -/
theorem set_server {t : PersistState} (h : AckSafe s)
    (hservers : s'.servers = Function.update s.servers i t)
    (hpruned : ∀ j, j ≠ i → s'.pruned j = s.pruned j) (hi : ServerInv s' i) (j : ServerIdx) :
    ServerInv s' j := by
  by_cases hj : j = i
  · rw [hj]
    exact hi
  · exact (h.server j).of_same (by rw [hservers, Function.update_of_ne hj]) (hpruned j hj)

/-- The servers after a step of one of them, other than pruning. -/
theorem set_step {l : PersistLabel} {t : PersistState} (h : AckSafe s)
    (hprune : ∀ off, l ≠ .prune off) (hok : persistOk (s.servers i) l)
    (hs : persistStep (s.servers i) l t) (hservers : s'.servers = Function.update s.servers i t)
    (hpruned : s'.pruned = s.pruned) (j : ServerIdx) : ServerInv s' j := by
  refine h.set_server hservers (fun j _ => by rw [hpruned]) ?_ j
  exact (h.server i).step hprune hok hs (by rw [hservers, Function.update_self]) (by rw [hpruned])

/-- The effect of a reply write is that of setting a reply byte of its entry. -/
theorem land_step {n : Nat} {p : ServerIdx} {r : PostedReply} (h : AckSafe s)
    (hr : s.flight[n]? = some r) (hrec : (s.servers p).recovered = true) :
    persistStep (s.servers p) (.reply r.det.offset r.server 1) { s.servers p with
      log := { (s.servers p).log with
        entries := setU8 (s.servers p).log.entries r.write.offset 1 } } := by
  rw [h.reply r (List.mem_of_getElem? hr)]
  exact ⟨hrec, rfl⟩

/-- The reply writes of a call. -/
theorem reply_posted {fuel : Nat} {r : DareLog × List Visit} (h : AckSafe s)
    (hcall : persistNewEntries (s.servers i).idx (s.servers i).isLeader fuel (s.servers i).log =
      some r) :
    ∀ p ∈ posted i r.2, p.write.offset = p.det.offset + REPLY_OFF + p.server := by
  intro p hp
  obtain ⟨v, hv, hpost⟩ := List.mem_filterMap.mp hp
  obtain ⟨w, hw, rfl⟩ := Option.map_eq_some_iff.mp hpost
  obtain ⟨-, hoffset, -⟩ := persistNewEntries_replies hcall v hv w hw
  rw [(h.server i).idx] at hoffset
  exact hoffset

/-- Every step under the condition keeps the logs windows. -/
theorem step {l : AckLabel} (h : AckSafe s) (hok : ackOk s l) (hs : ackStep s l s') :
    AckSafe s' := by
  cases l with
  | own i l =>
    obtain ⟨hown, t, ht, rfl⟩ := hs
    refine ⟨h.set_step ?_ hok ht rfl rfl, h.reply⟩
    rintro off rfl
    exact hown
  | join i q =>
    obtain ⟨-, -, rfl⟩ := hs
    exact ⟨fun j => (h.server j).of_same rfl rfl, h.reply⟩
  | recover i q readOk es =>
    obtain ⟨-, -, t, ht, rfl⟩ := hs
    exact ⟨h.set_step (l := .recover _ readOk es) nofun hok ht rfl rfl, h.reply⟩
  | lead i =>
    obtain ⟨t, ht, rfl⟩ := hs
    exact ⟨h.set_step (l := .lead) nofun trivial ht rfl rfl, h.reply⟩
  | follow i q =>
    obtain ⟨-, t, ht, rfl⟩ := hs
    exact ⟨h.set_step (l := .follow) nofun trivial ht rfl rfl, h.reply⟩
  | update q i rmtEnd es =>
    obtain ⟨-, -, t, ht, rfl⟩ := hs
    exact ⟨h.set_step (l := .update _ rmtEnd es) nofun hok ht rfl rfl, h.reply⟩
  | adjust q i off n =>
    obtain ⟨-, -, t, ht, rfl⟩ := hs
    exact ⟨h.set_step (l := .adjust off n) nofun hok ht rfl rfl, h.reply⟩
  | prune i visited off =>
    obtain ⟨t, ⟨hrec, rfl⟩, rfl⟩ := hs
    obtain ⟨⟨-, ⟨vs, hcur⟩, htail⟩, hwalk⟩ := hok
    obtain ⟨u, hinv⟩ := (h.server i).window hrec
    obtain ⟨u', hinv'⟩ := hinv.prune hwalk hcur htail
    refine ⟨h.set_server rfl (fun j hj => Function.update_of_ne hj _ _) ?_, h.reply⟩
    refine ⟨?_, ?_, fun hcon => ?_, fun _ => ⟨u', ?_⟩⟩
    all_goals simp only [AckCluster.set, Function.update_self] at *
    · exact (h.server i).idx
    · exact (h.server i).len
    · rw [hrec] at hcon
      cases hcon
    · exact hinv'
  | persist i =>
    obtain ⟨hrec, fuel, r, hcall, rfl⟩ := hs
    refine ⟨h.set_step (l := .persist) nofun trivial ⟨hrec, fuel, r, hcall, rfl⟩ rfl rfl, ?_⟩
    intro p hp
    rcases List.mem_append.mp hp with hold | hnew
    · exact h.reply p hold
    · exact h.reply_posted hcall p hnew
  | land n p =>
    obtain ⟨r, hr, -, rfl⟩ := hs
    obtain ⟨hrec, hlive⟩ := hok
    exact ⟨h.set_step (l := .reply _ _ _) nofun (hlive r hr) (h.land_step hr hrec) rfl rfl,
      fun q hq => h.reply q (List.mem_of_mem_eraseIdx hq)⟩
  | lose n =>
    obtain rfl := hs
    exact ⟨fun j => (h.server j).of_same rfl rfl,
      fun q hq => h.reply q (List.mem_of_mem_eraseIdx hq)⟩

theorem init (h : ackInit s) : AckSafe s := by
  obtain ⟨hservers, hflight⟩ := h
  refine ⟨fun i => ?_, fun r hr => ?_⟩
  · obtain ⟨⟨⟨head, apply, hlog⟩, hlt, hfollower, hrec, hstored, -⟩, hidx, -, hzero⟩ := hservers i
    refine ⟨hidx, by rw [hlog]; rfl, fun _ => ⟨⟨hrec, ?_, hstored, hlt⟩, hfollower, hzero⟩,
      fun hcon => ?_⟩
    · rw [hlog]
    · exact absurd (hrec.symm.trans hcon) (by decide)
  · rw [hflight] at hr
    cases hr

end AckSafe

end Apus
