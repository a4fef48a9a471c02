import Apus.Lib.Replicas
import Apus.Replication.Voting

namespace Apus

open Lib

/-!
# Committed entries across elections: the simulation

Replicas that elect leaders (`Lib.Replicas`) simulate the cluster: their logs are the entries written to
those of the servers, and what is committed is what the commit offset of a leader has passed.

* `Simulates` — the cluster is in a state that the replicas reach by steps of their own;
* `Simulates.committedKept` — it keeps committed entries;
* `Simulates.logStep` — it is kept by the steps of the logs.
-/

abbrev AbsCluster := Replicas ServerIdx DareLogEntry Nat

def entryTerm (e : DareLogEntry) : Nat := e.term.toNat

def entryIdx (e : DareLogEntry) : Nat := e.idx.toNat

/-- A majority of a group of `n` or `n + 1` servers. -/
def ChainQuorum (n : Nat) (V : ServerIdx → Prop) : Prop :=
  ∃ m p, (m = n ∨ m = n + 1) ∧ IsMajority m p ∧ ∀ k : ServerIdx, p k = true → V k

variable {n : Nat} {s s' : VoteCluster} {a a' : AbsCluster} {i j p q : ServerIdx} {t : PersistState}
  {log : DareLog} {hist h h' : List DareLogEntry} {e : DareLogEntry} {lo u k off : Nat}

theorem ChainQuorum.meet {V Q : ServerIdx → Prop} (hn : n < MAX_SERVER_COUNT) (hV : ChainQuorum n V)
    (hQ : ChainQuorum n Q) : ∃ k, V k ∧ Q k := by
  obtain ⟨m, f, hm, hf, hVk⟩ := hV
  obtain ⟨m', f', hm', hf', hQk⟩ := hQ
  obtain ⟨k, hk, -, hfk, hfk'⟩ := hf.meet hf' (by omega) (by omega)
  have hlt : k < MAX_SERVER_COUNT := by omega
  exact ⟨⟨k, hlt⟩, hVk _ hfk, hQk _ hfk'⟩

/-! ### Places of entries -/

/-- The entry is the `k`-th one, at this offset. -/
def AtPlace (h : List DareLogEntry) (k : Nat) (c : Nat × DareLogEntry) : Prop :=
  h[k]? = some c.2 ∧ entryOff logNew h k = c.1

theorem AtPlace.of_prefix {c : Nat × DareLogEntry} (hat : AtPlace h k c) (hp : h <+: h') :
    AtPlace h' k c := by
  obtain ⟨hget, hoff⟩ := hat
  refine ⟨prefix_getElem? hp hget, ?_⟩
  obtain ⟨more, rfl⟩ := hp
  obtain ⟨hk, -⟩ := List.getElem?_eq_some_iff.mp hget
  rw [entryOff_append hk]
  exact hoff

/-- A log has its entries where the leaders of their terms have them. -/
theorem atPlace_iff {led : Nat → List DareLogEntry} {c : Nat × DareLogEntry}
    (hf : FromLeaders entryTerm led h) (hget : h[k]? = some c.2) :
    AtPlace h k c ↔ AtPlace (led (entryTerm c.2)) k c := by
  have hoff : entryOff logNew h k = entryOff logNew (led (entryTerm c.2)) k := by
    rw [← entryOff_take (Nat.lt_succ_self k), hf k c.2 hget, entryOff_take (Nat.lt_succ_self k)]
  rw [AtPlace, AtPlace, hoff]
  exact ⟨fun hat => ⟨hf.getElem?_self hget, hat.2⟩, fun hat => ⟨hget, hat.2⟩⟩

/-- What a walk from a place finds. -/
theorem HoldsWritten.atPlace_of_walk {n w stop o : Nat} {live : List Nat}
    (h : HoldsWritten log hist lo u) (hlen : log.len = LOG_SIZE) (hp : PlaceAt log hist u n w off)
    (hwalk : readerWalk log (walkFuel log) off = some (live, stop)) (ho : o ∈ live) :
    ∃ k, AtPlace hist k (o, readEntry log.entries o) := by
  obtain ⟨live', stop', hwalk', hlive⟩ := h.walk_from hp
  obtain ⟨rfl, -⟩ := Prod.mk.inj (Option.some.inj (hwalk.symm.trans hwalk'))
  rw [hlive] at ho
  obtain ⟨k, hk, rfl⟩ := List.mem_map.mp ho
  obtain ⟨hnk, hlt⟩ := List.mem_range'_1.mp hk
  have hget : hist[k]? = some hist[k] := List.getElem?_eq_getElem (by omega)
  refine ⟨k, ?_, entryOff_of_len hlen.symm⟩
  rw [(h.window.place hp).read_entryOff hnk hget]
  exact hget

/-- A log holds every entry written to it. -/
theorem HoldsWritten.holdsAt {c : Nat × DareLogEntry} (h : HoldsWritten t.log t.written lo u)
    (hlen : t.log.len = LOG_SIZE) (hat : AtPlace t.written k c) : HoldsAt t c := by
  obtain ⟨hget, hoff⟩ := hat
  obtain ⟨hk, -⟩ := List.getElem?_eq_some_iff.mp hget
  obtain ⟨live, stop, hwalk, hlive⟩ := h.walk_from h.headPlace
  have hoff' : entryOff t.log t.written k = c.1 := (entryOff_of_len hlen).trans hoff
  refine ⟨live, stop, hwalk, ?_⟩
  rcases Nat.lt_or_ge k lo with hlt | hge
  · -- `head` went past it
    right
    refine ⟨List.mem_of_getElem? hget, fun o ho => ?_⟩
    rw [hlive] at ho
    obtain ⟨k', hk', rfl⟩ := List.mem_map.mp ho
    obtain ⟨hlo, hlt'⟩ := List.mem_range'_1.mp hk'
    have hlast : k' < t.written.length := by omega
    rw [h.window.read_entryOff hlo (List.getElem?_eq_getElem hlast)]
    have hinc := List.pairwise_iff_getElem.mp h.increasing k k' hk hlast (by omega)
    rwa [(List.getElem?_eq_some_iff.mp hget).2] at hinc
  · left
    rw [hlive, ← hoff']
    refine ⟨List.mem_map.mpr ⟨k, List.mem_range'_1.mpr ⟨hge, by omega⟩, rfl⟩, ?_⟩
    exact h.window.read_entryOff hge hget

/-- The entries before the commit offset are some of those written. -/
theorem HoldsWritten.atPlace_of_before {c : Nat × DareLogEntry} (h : HoldsWritten log hist lo u)
    (hlen : log.len = LOG_SIZE) (hc : c ∈ entriesBefore log) : ∃ k, AtPlace hist k c := by
  obtain ⟨live, stop, hwalk, -⟩ := h.walk_from h.headPlace
  rw [entriesBefore, hwalk] at hc
  obtain ⟨o, ho, rfl⟩ := List.mem_map.mp hc
  exact h.atPlace_of_walk hlen h.headPlace hwalk (List.mem_of_mem_filter ho)

/-- The commit rule goes along the walk over the entries. -/
theorem commitOffsets_subset {idx size fuel stop : Nat} {live : List Nat}
    (hwalk : readerWalk log fuel off = some (live, stop)) :
    ∀ o ∈ commitOffsets log idx size fuel off, o ∈ live := by
  induction fuel generalizing off live with
  | zero => cases hwalk
  | succ fuel ih =>
    intro o ho
    rw [readerWalk] at hwalk
    rw [commitOffsets] at ho
    cases hget : logGetEntry log off with
    | none =>
      rw [hget] at ho
      cases ho
    | some entry =>
      rw [hget] at hwalk ho
      dsimp only at hwalk ho
      by_cases hfit : logFitEntry log entry entry = true
      · rw [if_pos hfit] at hwalk
        rw [hfit, Bool.not_true, if_neg Bool.false_ne_true] at ho
        obtain ⟨⟨rest, stop'⟩, hr, heq⟩ := Option.map_eq_some_iff.mp hwalk
        obtain ⟨rfl, rfl⟩ : entry :: rest = live ∧ stop' = stop := Prod.mk.inj heq
        split at ho
        · cases ho
        · rcases List.mem_cons.mp ho with rfl | ho
          · exact List.mem_cons_self
          · exact List.mem_cons_of_mem _ (ih hr o ho)
      · rw [if_neg hfit] at hwalk
        rw [Bool.eq_false_iff.mpr hfit, Bool.not_false, if_pos rfl] at ho
        exact ih hwalk o ho

/-- It passes entries with enough replies. -/
theorem majority_of_commitOffsets {idx size fuel : Nat} :
    ∀ o ∈ commitOffsets log idx size fuel off, IsMajority size (isAcker log.entries o idx) := by
  induction fuel generalizing off with
  | zero =>
    intro o ho
    cases ho
  | succ fuel ih =>
    intro o ho
    rw [commitOffsets] at ho
    cases hget : logGetEntry log off with
    | none =>
      rw [hget] at ho
      cases ho
    | some entry =>
      rw [hget] at ho
      dsimp only at ho
      split at ho
      · exact ih o ho
      · split at ho
        · cases ho
        · rename_i hcount
          rcases List.mem_cons.mp ho with rfl | ho
          · rw [countReplies_eq] at hcount
            exact Nat.not_lt.mp hcount
          · exact ih o ho

/-- The entries that the commit offset passes are some of those written, and have enough replies. -/
theorem HoldsWritten.passed {idx size : Nat} {c : Nat × DareLogEntry} {visited : List Nat}
    (h : HoldsWritten log hist lo u) (hlen : log.len = LOG_SIZE)
    (hcommit : WalkTo log log.head visited log.commit) (hc : c ∈ passedEntries log idx size) :
    (∃ k, AtPlace hist k c) ∧ IsMajority size (isAcker log.entries c.1 idx) := by
  rw [passedEntries] at hc
  split at hc
  · cases hc
  · split at hc
    · obtain ⟨o, ho, rfl⟩ := List.mem_map.mp hc
      refine ⟨?_, majority_of_commitOffsets o ho⟩
      by_cases hempty : log.end_ = log.len
      · rw [walkFuel, commitOffsets, logGetEntry_of_end_eq_len hempty] at ho
        cases ho
      · obtain ⟨w, hw⟩ := h.window.placeAt h.endsAt hempty h.headOff hcommit
        obtain ⟨live, stop, hwalk, -⟩ := h.walk_from hw
        exact h.atPlace_of_walk hlen hw hwalk (commitOffsets_subset hwalk o ho)
    · cases hc

/-! ### The simulation -/

/-- A vote request is one of a candidate, with the last entry that its log had then; or it was
    dropped. -/
structure RequestFrom (a : AbsCluster) (i : Nat) (r : VoteReq) : Prop where
  noL : sidGetL r.sid = false
  candidacy : r.sid = 0 ∨ ∃ c ∈ a.candidacies, c.candidate.val = i ∧ (sidGetIdx r.sid).toNat = i ∧
    c.term = (sidGetTerm r.sid).toNat ∧ lastIdxTerm c.log = (r.index, r.term)

/-- The replicas are the servers. -/
structure Tracks (s : VoteCluster) (a : AbsCluster) : Prop where
  safe : MatchSafe s.logs
  hist : a.hist = s.logs.hist
  term : ∀ i, a.term i = (s.logs.term i).toNat
  leads : ∀ i, a.leads i = (s.logs.servers i).isLeader
  joined : ∀ i, a.joined i = (s.logs.servers i).recovered
  elected : ∀ T, a.elected T → ∃ U p, U.toNat = T ∧ (U, p) ∈ s.logs.led
  taken : ∀ i (T : UInt64), ∀ e ∈ s.taken i T, e ∈ a.taken i T.toNat
  sid : ∀ i, sidGetTerm (s.ctrl i).sid = s.logs.term i

/-- What the cluster has on record is what the replicas have. -/
structure OnRecord (s : VoteCluster) (a : AbsCluster) : Prop where
  passed : ∀ T c, (T, c) ∈ s.passed →
    ∃ k, (T.toNat, k, c.2) ∈ a.committed ∧ AtPlace (a.led (entryTerm c.2)) k c
  past : ∀ i, ∀ c ∈ s.past i, ∃ k, (k, c.2) ∈ a.known i ∧ AtPlace (a.led (entryTerm c.2)) k c
  flight : ∀ i j, ∀ p ∈ s.flight i j, ∀ r, p.write = .voteReq r → RequestFrom a i r
  slots : ∀ i j, RequestFrom a j ((s.ctrl i).voteReq j)
  ballots : ∀ (k : ServerIdx), ∀ v ∈ s.ballots k, (sidGetIdx v).toNat = k ∨
    ∃ b ∈ a.votes, b.voter = k ∧ b.candidate.val = (sidGetIdx v).toNat ∧
      b.term = (sidGetTerm v).toNat

abbrev AbsStep (n : Nat) : AbsCluster → AbsCluster → Prop := Move entryTerm entryIdx (ChainQuorum n)

/-- The cluster is in a state that new replicas reach by steps of their own. -/
structure Simulates (n : Nat) (s : VoteCluster) (a : AbsCluster) : Prop where
  size : n < MAX_SERVER_COUNT
  run : Relation.ReflTransGen (AbsStep n) (Replicas.new 0) a
  tracks : Tracks s a
  onRecord : OnRecord s a

theorem RequestFrom.evolves {i : Nat} {r : VoteReq} (h : RequestFrom a i r) (hg : Evolves a a') :
    RequestFrom a' i r :=
  ⟨h.noL, h.candidacy.imp id fun ⟨c, hc, hreq⟩ => ⟨c, hg.candidacies c hc, hreq⟩⟩

theorem OnRecord.evolves (h : OnRecord s a) (hg : Evolves a a') : OnRecord s a' := by
  refine ⟨fun T c hc => ?_, fun i c hc => ?_, fun i j p hp r hr => (h.flight i j p hp r hr).evolves hg,
    fun i j => (h.slots i j).evolves hg, fun k v hv => ?_⟩
  · obtain ⟨k, hk, hat⟩ := h.passed T c hc
    exact ⟨k, hg.commits _ hk, hat.of_prefix (hg.led _)⟩
  · obtain ⟨k, hk, hat⟩ := h.past i c hc
    exact ⟨k, hg.knows i _ hk, hat.of_prefix (hg.led _)⟩
  · exact (h.ballots k v hv).imp id fun ⟨b, hb, hvote⟩ => ⟨b, hg.votes b hb, hvote⟩

/-- Only the records matter. -/
theorem OnRecord.of_eq (h : OnRecord s a) (hpassed : s'.passed = s.passed) (hpast : s'.past = s.past)
    (hflight : s'.flight = s.flight) (hslots : ∀ i, (s'.ctrl i).voteReq = (s.ctrl i).voteReq)
    (hballots : s'.ballots = s.ballots) : OnRecord s' a := by
  refine ⟨?_, ?_, ?_, fun i j => ?_, ?_⟩
  · rw [hpassed]
    exact h.passed
  · rw [hpast]
    exact h.past
  · rw [hflight]
    exact h.flight
  · rw [hslots i]
    exact h.slots i j
  · rw [hballots]
    exact h.ballots

/-- Only the logs and the SIDs matter, and what was taken. -/
theorem Tracks.of_eq (h : Tracks s a) (hlogs : s'.logs = s.logs)
    (hsid : ∀ j, (s'.ctrl j).sid = (s.ctrl j).sid) (htaken : s'.taken = s.taken) :
    Tracks s' a := by
  constructor
  · rw [hlogs]
    exact h.safe
  · rw [hlogs]
    exact h.hist
  · rw [hlogs]
    exact h.term
  · rw [hlogs]
    exact h.leads
  · rw [hlogs]
    exact h.joined
  · rw [hlogs]
    exact h.elected
  · rw [htaken]
    exact h.taken
  · intro j
    rw [hsid, hlogs]
    exact h.sid j

/-- One of the servers, or what is written to it, has changed. -/
theorem Tracks.set {logs : MatchCluster} (h : Tracks s a) (hsafe : MatchSafe logs)
    (hservers : logs.servers = Function.update s.logs.servers i t) (hterm : logs.term = s.logs.term)
    (hled : logs.led = s.logs.led) (hleader : t.isLeader = (s.logs.servers i).isLeader)
    (hlogs : s'.logs = logs) (hctrl : ∀ j, (s'.ctrl j).sid = (s.ctrl j).sid)
    (hhist : a'.hist = Function.update a.hist i (historyOf t))
    (hjoined : a'.joined = Function.update a.joined i t.recovered) (hterm' : a'.term = a.term)
    (hleads : a'.leads = a.leads) (helected : a'.elected = a.elected)
    (htaken : ∀ j (T : UInt64), ∀ e ∈ s'.taken j T, e ∈ a'.taken j T.toNat) : Tracks s' a' := by
  subst hlogs
  have hserver : ∀ j, j ≠ i → s'.logs.servers j = s.logs.servers j := by
    intro j hj
    rw [hservers, Function.update_of_ne hj]
  refine ⟨hsafe, funext fun j => ?_, fun j => ?_, fun j => ?_, fun j => ?_, fun T hT => ?_, htaken,
    fun j => ?_⟩
  · by_cases hj : j = i
    · subst hj
      rw [hhist, MatchCluster.hist, hservers, Function.update_self, Function.update_self]
    · rw [hhist, Function.update_of_ne hj, h.hist, MatchCluster.hist, MatchCluster.hist, hserver j hj]
  · rw [hterm', hterm]
    exact h.term j
  · rw [hleads, h.leads]
    by_cases hj : j = i
    · subst hj
      rw [hservers, Function.update_self, hleader]
    · rw [hserver j hj]
  · by_cases hj : j = i
    · subst hj
      rw [hjoined, hservers, Function.update_self, Function.update_self]
    · rw [hjoined, Function.update_of_ne hj, h.joined, hserver j hj]
  · rw [helected] at hT
    rw [hled]
    exact h.elected T hT
  · rw [hctrl, hterm]
    exact h.sid j

/-- The steps of a server that add no entry are those of one that is recovered. -/
theorem recovered_of_local {l : PersistLabel} {t t' : PersistState} (hl : IsLocal l)
    (hs : persistStep t l t') : t.recovered = true ∧ t'.recovered = true := by
  cases l with
  | resetTail =>
    obtain ⟨hrec, -, rfl⟩ := hs
    exact ⟨hrec, hrec⟩
  | persist =>
    obtain ⟨hrec, fuel, r, -, rfl⟩ := hs
    exact ⟨hrec, hrec⟩
  | reply | setCommit | setApply | prune =>
    obtain ⟨hrec, rfl⟩ := hs
    exact ⟨hrec, hrec⟩
  | _ => exact hl.elim

namespace Simulates

theorem meet (h : Simulates n s a) (V Q : ServerIdx → Prop) (hV : ChainQuorum n V)
    (hQ : ChainQuorum n Q) : ∃ k, V k ∧ Q k := hV.meet h.size hQ

theorem sound (h : Simulates n s a) : Sound entryTerm entryIdx (ChainQuorum n) a :=
  Sound.run h.meet h.run

/-- A step of the replicas, with the cluster that they then are. -/
theorem next (h : Simulates n s a) (hm : AbsStep n a a') (htracks : Tracks s' a')
    (hon : OnRecord s' a') : Simulates n s' a' := ⟨h.size, h.run.tail hm, htracks, hon⟩

/-- The replicas stay as they are. -/
theorem stay (h : Simulates n s a) (htracks : Tracks s' a) (hon : OnRecord s' a) :
    Simulates n s' a := ⟨h.size, h.run, htracks, hon⟩

theorem servers_holds (h : Simulates n s a) (hjoined : a.joined i = true) :
    ∃ lo u, HoldsWritten (s.logs.servers i).log (s.logs.servers i).written lo u ∧
      a.hist i = (s.logs.servers i).written ∧ (s.logs.servers i).log.len = LOG_SIZE := by
  have hrec : (s.logs.servers i).recovered = true := (h.tracks.joined i).symm.trans hjoined
  obtain ⟨lo, u, hh⟩ := (h.tracks.safe.server i).holds hrec
  refine ⟨lo, u, hh, ?_, (h.tracks.safe.server i).len⟩
  rw [h.tracks.hist, MatchCluster.hist, historyOf_of_recovered hrec]

/-- A change of a server that its log does not show. -/
theorem quiet {logs : MatchCluster} (h : Simulates n s a) (hsafe : MatchSafe logs)
    (hservers : logs.servers = Function.update s.logs.servers i t) (hterm : logs.term = s.logs.term)
    (hled : logs.led = s.logs.led) (hleader : t.isLeader = (s.logs.servers i).isLeader)
    (hhist : historyOf t = s.logs.hist i) (hrec : t.recovered = (s.logs.servers i).recovered) :
    Simulates n { s with logs := logs } a := by
  refine h.stay ?_ (h.onRecord.of_eq rfl rfl rfl (fun _ => rfl) rfl)
  refine h.tracks.set hsafe hservers hterm hled hleader rfl (fun _ => rfl) ?_ ?_ rfl rfl rfl
    h.tracks.taken
  · rw [hhist, ← h.tracks.hist, Function.update_eq_self]
  · rw [hrec, ← h.tracks.joined, Function.update_eq_self]

/-- A server learns that entries of its log were passed by a leader, in a term up to its own. -/
theorem learn {new : List (Nat × DareLogEntry)} (h : Simulates n s a)
    (hrec : (s.logs.servers i).recovered = true)
    (hnew : ∀ c ∈ new, (∃ k, AtPlace (s.logs.servers i).written k c) ∧
      ∃ T, T ≤ s.logs.term i ∧ (T, c) ∈ s.passed) :
    ∃ a', Simulates n { s with past := Function.update s.past i (s.past i ++ new) } a' := by
  have hjoined : a.joined i = true := (h.tracks.joined i).trans hrec
  obtain ⟨-, -, -, hhist, -⟩ := h.servers_holds hjoined
  -- an entry that was passed is at the place where the leader had it
  have hplace : ∀ c ∈ new, ∃ k, (∃ T, T ≤ a.term i ∧ (T, k, c.2) ∈ a.committed) ∧
      (a.hist i)[k]? = some c.2 ∧ AtPlace (a.led (entryTerm c.2)) k c := by
    intro c hc
    obtain ⟨⟨k, hat⟩, T, hT, hpassed⟩ := hnew c hc
    rw [← hhist] at hat
    have hled := (atPlace_iff (h.sound.source i) hat.1).mp hat
    obtain ⟨k', hk', hat'⟩ := h.onRecord.passed T c hpassed
    obtain ⟨rfl, -⟩ := h.sound.logs.take_eq (h.sound.logs.source _) (h.sound.logs.source _) hled.1 hat'.1
    refine ⟨k, ⟨T.toNat, ?_, hk'⟩, hat.1, hled⟩
    rw [h.tracks.term]
    exact UInt64.le_iff_toNat_le.mp hT
  choose! place hcom hget hat using hplace
  have hm : AbsStep n a (a.learn i (new.map fun c => (place c, c.2))) := by
    refine .learn hjoined fun r hr => ?_
    obtain ⟨c, hc, rfl⟩ := List.mem_map.mp hr
    exact ⟨hcom c hc, hget c hc⟩
  have hr := h.onRecord.evolves (h.sound.evolves hm)
  refine ⟨_, h.next hm ?_ ⟨hr.passed, fun j c hc => ?_, hr.flight, hr.slots, hr.ballots⟩⟩
  · exact ⟨h.tracks.safe, h.tracks.hist, h.tracks.term, h.tracks.leads, h.tracks.joined,
      h.tracks.elected, h.tracks.taken, h.tracks.sid⟩
  · by_cases hj : j = i
    · subst hj
      dsimp only at hc
      rw [Function.update_self] at hc
      rcases List.mem_append.mp hc with hc | hc
      · exact hr.past j c hc
      · refine ⟨place c, ?_, hat c hc⟩
        rw [Replicas.known_learn, Function.update_self]
        exact List.mem_append_left _ (List.mem_map.mpr ⟨c, hc, rfl⟩)
    · dsimp only at hc
      rw [Function.update_of_ne hj] at hc
      exact hr.past j c hc

/-- The commit offset of a server is set behind entries that a leader has passed. -/
theorem setPast {log : DareLog} (h : Simulates n s a) (hrec : (s.logs.servers i).recovered = true)
    (hlog : (s.logs.servers i).log = log) (hbefore : PassedBefore s i log) :
    ∃ a', Simulates n (s.setPast i log) a' := by
  subst hlog
  obtain ⟨lo, u, hh, -, hlen⟩ := h.servers_holds ((h.tracks.joined i).trans hrec)
  exact h.learn hrec fun c hc => ⟨hh.atPlace_of_before hlen hc, hbefore c hc⟩

/-- The log of a server that is recovered has other entries. -/
theorem replaced {logs : MatchCluster} (h : Simulates n s a) (hm : AbsStep n a a')
    (hsafe : MatchSafe logs)
    (hservers : logs.servers = Function.update s.logs.servers i t) (hterm : logs.term = s.logs.term)
    (hled : logs.led = s.logs.led) (hleader : t.isLeader = (s.logs.servers i).isLeader)
    (hrec : t.recovered = (s.logs.servers i).recovered)
    (hhist : a'.hist = Function.update a.hist i (historyOf t))
    (hjoined : a'.joined = a.joined) (hterm' : a'.term = a.term)
    (hleads : a'.leads = a.leads) (helected : a'.elected = a.elected)
    (hlogs : s'.logs = logs) (hctrl : s'.ctrl = s.ctrl)
    (htaken : ∀ j (T : UInt64), ∀ e ∈ s'.taken j T, e ∈ a'.taken j T.toNat)
    (hpassed : s'.passed = s.passed) (hpast : s'.past = s.past) (hflight : s'.flight = s.flight)
    (hballots : s'.ballots = s.ballots) : Simulates n s' a' := by
  have hr := h.onRecord.evolves (h.sound.evolves hm)
  refine h.next hm ?_ (hr.of_eq hpassed hpast hflight (fun _ => ?_) hballots)
  · refine h.tracks.set hsafe hservers hterm hled hleader hlogs (fun _ => by rw [hctrl]) hhist ?_ hterm'
      hleads helected htaken
    rw [hjoined, hrec, ← h.tracks.joined, Function.update_eq_self]
  · rw [hctrl]

/-- An append of a leader. -/
theorem append {logs : MatchCluster} {term reqId idx : UInt64} {cltId : UInt16} {type : UInt8}
    {data : EntryData} {log : DareLog} (h : Simulates n s a)
    (hlead : (s.logs.servers i).isLeader = true)
    (hok : PersistAppendOk (s.logs.servers i) type data) (hown : term = s.logs.term i)
    (happend : logAppendEntry (s.logs.servers i).log term reqId cltId type data = some (log, idx))
    (ht : t = { s.logs.servers i with
      log := log
      written := if isLogFull (s.logs.servers i).log then (s.logs.servers i).written
        else (s.logs.servers i).written ++ [mkEntry idx term reqId cltId type data] })
    (hsafe : MatchSafe logs) (hservers : logs.servers = Function.update s.logs.servers i t)
    (hterm : logs.term = s.logs.term) (hled : logs.led = s.logs.led) :
    ∃ a', Simulates n { s with logs := logs } a' := by
  have hleader : t.isLeader = (s.logs.servers i).isLeader := by rw [ht]
  have hrec : t.recovered = (s.logs.servers i).recovered := by rw [ht]
  obtain ⟨-, hsame | ⟨e, hnew, heterm, -, hidx⟩⟩ :=
    (h.tracks.safe.server i).append hlead hok happend ht
  · exact ⟨a, h.quiet hsafe hservers hterm hled hleader hsame hrec⟩
  · have hleads : a.leads i = true := (h.tracks.leads i).trans hlead
    have hhist : a.hist i = historyOf (s.logs.servers i) := congrFun h.tracks.hist i
    have hterm' : entryTerm e = a.term i := by
      rw [h.tracks.term, entryTerm, heterm, hown]
    have hidx' : ∀ x ∈ a.hist i, entryIdx x < entryIdx e := by
      intro x hx
      rw [hhist] at hx
      exact UInt64.lt_iff_toNat_lt.mp (hidx x hx)
    refine ⟨_, h.replaced (.append hleads hterm' hidx') hsafe hservers hterm hled hleader hrec ?_
      rfl rfl rfl rfl rfl rfl h.tracks.taken rfl rfl rfl rfl⟩
    rw [Replicas.hist_append, hnew, hhist]

/-- A log update of the leader `q`. -/
theorem update {rmtEnd : Nat} {es : List DareLogEntry} {logs : MatchCluster} (h : Simulates n s a)
    (hok : matchOk s.logs (.update q i rmtEnd es)) (hwrite : writeOk s (.update q i rmtEnd es))
    (hs : matchStep s.logs (.update q i rmtEnd es) logs) :
    ∃ a', Simulates n (s.logStep (.update q i rmtEnd es) logs) a' := by
  have hsafe := h.tracks.safe.step hok hs
  obtain ⟨-, hlead, t, ht, rfl⟩ := hs
  obtain ⟨-, hfollower, hup, hlast, hshare⟩ := hok
  obtain ⟨hterm, x, hx, hxterm⟩ := hwrite
  obtain ⟨hpre, -, hhist, hleader⟩ := h.tracks.safe.hist_update hlead hup hlast hshare ht
  have hrec : (s.logs.servers i).recovered = true := ht.1
  have hrec' : t.recovered = true := by
    rw [ht.2]
    exact hrec
  have hleads : a.leads q = true := (h.tracks.leads q).trans hlead
  have hsame : a.term i = a.term q := by rw [h.tracks.term, h.tracks.term, hterm]
  have hhistq : s.logs.hist q = (s.logs.servers q).written :=
    historyOf_of_recovered ((h.tracks.safe.server q).recovered_of_leader hlead)
  have hm : AbsStep n a (a.copy q i) := by
    refine .copy hleads ((h.tracks.leads i).trans hfollower) ((h.tracks.joined i).trans hrec) hsame
      ?_ ⟨x, ?_, ?_⟩
    · rw [h.tracks.hist]
      exact hpre
    · rw [h.tracks.hist, hhistq]
      exact hx
    · rw [h.tracks.term, entryTerm, hxterm]
  refine ⟨_, h.replaced hm hsafe rfl rfl rfl hleader (hrec'.trans hrec.symm) ?_ rfl rfl rfl rfl rfl
    rfl (fun j T x => ?_) rfl rfl rfl rfl⟩
  · rw [Replicas.hist_copy, h.tracks.hist, hhist]
  · show x ∈ Function.update s.taken i (Function.update (s.taken i) (s.logs.term q)
      ((s.logs.set i t).servers i).written) j T → x ∈ (a.copy q i).taken j T.toNat
    rw [Replicas.taken_copy, MatchSafe.servers_set_self, h.tracks.term, h.tracks.hist]
    by_cases hj : j = i
    · subst hj
      rw [Function.update_self, Function.update_self]
      by_cases hT : T = s.logs.term q
      · subst hT
        rw [Function.update_self, Function.update_self, ← hhist, historyOf_of_recovered hrec']
        exact id
      · rw [Function.update_of_ne hT, Function.update_of_ne fun hcon => hT (UInt64.toNat_inj.mp hcon)]
        exact h.tracks.taken j T x
    · rw [Function.update_of_ne hj, Function.update_of_ne hj]
      exact h.tracks.taken j T x

/-- A log adjustment of the leader `q`. -/
theorem adjust {off m : Nat} {logs : MatchCluster} (h : Simulates n s a)
    (hok : matchOk s.logs (.adjust q i off m)) (hwrite : writeOk s (.adjust q i off m))
    (hs : matchStep s.logs (.adjust q i off m) logs) :
    ∃ a', Simulates n (s.logStep (.adjust q i off m) logs) a' := by
  have hsafe := h.tracks.safe.step hok hs
  obtain ⟨-, hlead, t, ht, rfl⟩ := hs
  obtain ⟨-, hfollower, hend⟩ := hok
  obtain ⟨hterm, hcut⟩ := hwrite
  obtain ⟨-, hhist, hleader⟩ := (h.tracks.safe.server i).adjust hend ht
  have hrec : (s.logs.servers i).recovered = true := ht.1
  have hrec' : t.recovered = true := by
    rw [ht.2]
    exact hrec
  have hleads : a.leads q = true := (h.tracks.leads q).trans hlead
  have hhisti : a.hist i = (s.logs.servers i).written := by
    rw [h.tracks.hist, MatchCluster.hist, historyOf_of_recovered hrec]
  have hhistq : a.hist q = (s.logs.servers q).written := by
    rw [h.tracks.hist, MatchCluster.hist,
      historyOf_of_recovered ((h.tracks.safe.server q).recovered_of_leader hlead)]
  have hm : AbsStep n a (a.truncate i m) := by
    refine .truncate hleads ((h.tracks.leads i).trans hfollower)
      (by rw [h.tracks.term, h.tracks.term, hterm]) ?_
    rw [hhisti, hhistq]
    exact hcut
  refine ⟨_, h.replaced hm hsafe rfl rfl rfl hleader (hrec'.trans hrec.symm) ?_ rfl rfl rfl rfl rfl
    rfl h.tracks.taken rfl rfl rfl rfl⟩
  · rw [Replicas.hist_truncate, hhist, h.tracks.hist]
    rfl

/-- A server has got its first log. -/
theorem join {logs : MatchCluster} (h : Simulates n s a) (hnew : (s.logs.servers i).recovered = false)
    (hsafe : MatchSafe logs) (hservers : logs.servers = Function.update s.logs.servers i t)
    (hterm : logs.term = s.logs.term) (hled : logs.led = s.logs.led)
    (hleader : t.isLeader = (s.logs.servers i).isLeader) (hrec : t.recovered = true)
    (hf : FromLeaders entryTerm a.led (historyOf t))
    (hle : ∀ x ∈ historyOf t, entryTerm x ≤ a.term i) :
    ∃ a', Simulates n { s with logs := logs } a' := by
  have hjoined : a.joined i = false := (h.tracks.joined i).trans hnew
  have hm : AbsStep n a (a.join i (historyOf t)) := .join hjoined hf hle
  have hr := h.onRecord.evolves (h.sound.evolves hm)
  refine ⟨_, h.next hm ?_ (hr.of_eq rfl rfl rfl (fun _ => rfl) rfl)⟩
  refine h.tracks.set hsafe hservers hterm hled hleader rfl (fun _ => rfl) rfl ?_ rfl rfl rfl
    h.tracks.taken
  rw [Replicas.joined_join, hrec]

/-- A step of a server that adds no entry to its log. -/
theorem own {l : PersistLabel} {logs : MatchCluster} (h : Simulates n s a)
    (hok : localOk (s.logs.servers i) l) (hs : matchStep s.logs (.own i l) logs) :
    Simulates n { s with logs := logs } a := by
  have hsafe := h.tracks.safe.step (l := .own i l) ⟨trivial, hok⟩ hs
  obtain ⟨hl, t, ht, rfl⟩ := hs
  obtain ⟨-, hhist, hleader⟩ := (h.tracks.safe.server i).step_own hl hok ht
  obtain ⟨hrec, hrec'⟩ := recovered_of_local hl ht
  exact h.quiet hsafe rfl rfl rfl hleader hhist (hrec'.trans hrec.symm)

/-- A recovery reads the log of `q`, or fails. -/
theorem recover {readOk : Bool} {es : List DareLogEntry} {logs : MatchCluster} (h : Simulates n s a)
    (hok : matchOk s.logs (.recover i q readOk es)) (hwrite : writeOk s (.recover i q readOk es))
    (hs : matchStep s.logs (.recover i q readOk es) logs) :
    ∃ a', Simulates n (s.logStep (.recover i q readOk es) logs) a' := by
  have hsafe := h.tracks.safe.step hok hs
  obtain ⟨-, hq, t, ht, rfl⟩ := hs
  obtain ⟨-, hrec, rfl⟩ := hok
  obtain ⟨hle, hbefore⟩ := hwrite
  obtain ⟨hinv, -, hfollower⟩ := (h.tracks.safe.server i).recover hrec ht
  have hnew := ht.1
  have hleader : t.isLeader = (s.logs.servers i).isLeader :=
    hfollower.trans ((h.tracks.safe.server i).joining hnew).2.symm
  have hself : (s.logs.set i t).servers i = t := MatchSafe.servers_set_self
  rw [VoteCluster.logStep, hself]
  cases hdone : t.recovered with
  | false =>
    rw [if_neg Bool.false_ne_true]
    refine ⟨a, h.quiet hsafe rfl rfl rfl hleader ?_ (hdone.trans hnew.symm)⟩
    rw [historyOf_of_joining hdone, MatchCluster.hist, historyOf_of_joining hnew]
  | true =>
    rw [if_pos rfl]
    have hhist : historyOf t = s.logs.hist q := by
      rw [historyOf_of_recovered hdone, ht.2]
      exact (historyOf_of_recovered hq).symm
    obtain ⟨a', h'⟩ := h.join hnew hsafe rfl rfl rfl hleader hdone
      (by rw [hhist, ← h.tracks.hist]; exact h.sound.source q) (fun x hx => by
        rw [hhist, MatchCluster.hist, historyOf_of_recovered hq] at hx
        rw [h.tracks.term]
        exact UInt64.le_iff_toNat_le.mp (hle x hx))
    refine h'.setPast (i := i) (by rw [hself]; exact hdone) (by rw [hself]) ?_
    have hlog : t.log = (rcRecoverLog (s.logs.servers i).log (s.logs.servers q).log readOk).1 := by
      rw [ht.2]
    rw [hlog]
    refine hbefore ?_
    rw [← hdone, ht.2]

/-- A step of the logs. -/
theorem logStep {l : MatchLabel} {logs : MatchCluster} (h : Simulates n s a)
    (hlog : IsLogStep l) (hok : matchOk s.logs l) (hwrite : writeOk s l)
    (hs : matchStep s.logs l logs) : ∃ a', Simulates n (s.logStep l logs) a' := by
  have hsafe := h.tracks.safe.step hok hs
  cases l with
  | start i =>
    obtain ⟨t, ht, rfl⟩ := hs
    obtain ⟨-, hhist, hfollower⟩ := (h.tracks.safe.server i).start ht
    have hleader : t.isLeader = (s.logs.servers i).isLeader :=
      hfollower.trans ((h.tracks.safe.server i).joining ht.1).2.symm
    have hrec : t.recovered = true := by rw [ht.2.2.2]
    refine h.join ht.1 hsafe rfl rfl rfl hleader hrec ?_ fun x hx => ?_
    · rw [hhist]
      exact FromLeaders.nil
    · rw [hhist] at hx
      cases hx
  | own i l =>
    have h' := h.own hok.2 hs
    cases l with
    | setCommit off =>
      obtain ⟨-, t, ht, rfl⟩ := hs
      have hself : (s.logs.set i t).servers i = t := MatchSafe.servers_set_self
      rw [VoteCluster.logStep]
      refine h'.setPast (i := i) ?_ rfl ?_
      · rw [hself, ht.2]
        exact ht.1
      · rw [hself, ht.2]
        exact hwrite
    | _ => exact ⟨a, h'⟩
  | recover i q readOk es => exact h.recover hok hwrite hs
  | lead i => exact hlog.elim
  | follow i term => exact hlog.elim
  | enter i r =>
    obtain ⟨-, rfl⟩ := hs
    exact ⟨a, h.quiet (i := i) hsafe (Function.update_eq_self ..).symm rfl rfl rfl rfl rfl⟩
  | submit i n =>
    obtain ⟨r, proxy, m, -, -, rfl⟩ := hs
    exact ⟨a, h.quiet (i := i) hsafe (Function.update_eq_self ..).symm rfl rfl rfl rfl rfl⟩
  | drain i =>
    obtain ⟨m, rest, log, idx, hqueue, happend, rfl⟩ := hs
    obtain ⟨-, hlead, hroom⟩ := hok
    have hhead : m ∈ (s.logs.tailq i).head? := by rw [hqueue]; rfl
    exact h.append hlead (hroom m hhead) rfl happend rfl hsafe rfl rfl rfl
  | append i reqId cltId type data =>
    obtain ⟨t, ⟨-, hlead, log, idx, happend, rfl⟩, rfl⟩ := hs
    exact h.append hlead hok.2 rfl happend rfl hsafe rfl rfl rfl
  | update q i rmtEnd es => exact h.update hok hwrite hs
  | adjust q i off m => exact h.adjust hok hwrite hs

end Simulates

end Apus
