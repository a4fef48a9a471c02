import Mathlib.Algebra.Order.BigOperators.Group.List
import Apus.Proxy.Sockets

namespace Apus

open Lib

/-!
# Byte streams on a replica

`do_action_connect` switches the socket of a replica to non-blocking mode, and `do_action_send`
makes one `write` for an entry.  Such a `write` takes as many bytes as the socket has room for, or
fails with `EAGAIN`; the bytes it does not take are not written again.

* `deliverAll` — the sockets of a replica after some entries, with what each `write` took;
* `deliversStreams_iff` — the streams are the payloads exactly when every `write` took them whole.
-/

/-! ### Delivery -/

/-- The bytes of an action. -/
def ServerAction.data : ServerAction → List UInt8
  | .send _ data => data
  | _ => []

/-- The bytes an action sends on a connection. -/
def ServerAction.sentTo (a : ServerAction) (cltId : UInt16) : List UInt8 :=
  match a with
  | .send cltId' data => if cltId' = cltId then data else []
  | _ => []

/-- An entry that is applied, and how many bytes its `write` takes: none when it fails. -/
structure Delivery where
  action : ServerAction
  accepted : Nat
  accepted_le : accepted ≤ action.data.length

/-- The action with the bytes that reach the socket. -/
def Delivery.taken (d : Delivery) : ServerAction :=
  match d.action with
  | .send cltId data => .send cltId (data.take d.accepted)
  | a => a

/-- The entries one after the other. -/
def FollowerProxy.deliver (p : FollowerProxy) (ds : List Delivery) : FollowerProxy :=
  ds.foldl (fun p d => p.perform d.taken) p

/-- A replica that applied the entries. -/
def deliverAll (ds : List Delivery) : FollowerProxy := FollowerProxy.new.deliver ds

/-! ### Streams -/

/-- The entries of a connection, from the entries after its CONNECT. -/
def untilClose (cltId : UInt16) (ds : List Delivery) : List Delivery :=
  ds.takeWhile fun d => d.action ≠ .close cltId

/-- The payloads of a connection in log order. -/
def stream (cltId : UInt16) (ds : List Delivery) : List UInt8 :=
  (untilClose cltId ds).flatMap fun d => d.action.sentTo cltId

/-- A connection is closed before the next one with its id. -/
def DistinctIds (ds : List Delivery) : Prop :=
  ∀ before cltId between after d d', ds = before ++ d :: (between ++ d' :: after) →
    d.action = .connect cltId → d'.action = .connect cltId →
      ∃ c ∈ between, c.action = .close cltId

/-- Each socket received the payloads of the connection it was opened for. -/
def DeliversStreams (ds : List Delivery) : Prop :=
  ∀ before d after cltId, ds = before ++ d :: after → d.action = .connect cltId →
    ((deliverAll ds).written (deliverAll before).sockets).flatten = stream cltId after

/-- Each `write` to a connection takes all bytes. -/
def WholeWrites (ds : List Delivery) : Prop :=
  ∀ before d after cltId, ds = before ++ d :: after → d.action = .connect cltId →
    ∀ c ∈ untilClose cltId after, ∀ data, c.action = .send cltId data → c.accepted = data.length

variable {p : FollowerProxy} {ds : List Delivery} {a : ServerAction} {d : Delivery}
  {cltId id : UInt16} {ps : Nat} {data : List UInt8}

/-! ### Sockets -/

theorem SocketsOpened.deliver (h : SocketsOpened p) (ds : List Delivery) :
    SocketsOpened (p.deliver ds) := by
  induction ds generalizing p with
  | nil => exact h
  | cons d ds ih => exact ih (h.perform d.taken)

theorem deliver_cons (p : FollowerProxy) (d : Delivery) (ds : List Delivery) :
    p.deliver (d :: ds) = (p.perform d.taken).deliver ds := rfl

/-- The bytes of an entry on a connection that reach its socket. -/
theorem taken_connect (h : d.action = .connect id) : d.taken = .connect id := by
  simp [Delivery.taken, h]

theorem taken_send (h : d.action = .send id data) :
    d.taken = .send id (data.take d.accepted) := by
  simp [Delivery.taken, h]

theorem taken_close (h : d.action = .close id) : d.taken = .close id := by
  simp [Delivery.taken, h]

/-! ### What a socket receives -/

/-- A socket was opened and closed again. -/
def Closed (p : FollowerProxy) (ps : Nat) : Prop :=
  ps < p.sockets ∧ ∀ id, p.followerHashMap id ≠ some ps

/-- An action leaves a closed socket alone. -/
theorem Closed.perform (h : Closed p ps) (a : ServerAction) :
    Closed (p.perform a) ps ∧ (p.perform a).written ps = p.written ps := by
  obtain ⟨hlt, hclosed⟩ := h
  cases a with
  | connect id =>
    show Closed (p.doActionConnect id) ps ∧ (p.doActionConnect id).written ps = _
    cases hid : p.followerHashMap id with
    | some ps' =>
      rw [doActionConnect_some hid]
      exact ⟨⟨hlt, hclosed⟩, rfl⟩
    | none =>
      rw [doActionConnect_none hid]
      refine ⟨⟨Nat.lt_succ_of_lt hlt, fun id' hps => ?_⟩, rfl⟩
      -- the new socket has a number of its own
      by_cases hid' : id' = id
      · simp [hid'] at hps
        omega
      · exact hclosed id' (by simpa [Function.update_of_ne hid'] using hps)
  | send id data =>
    show Closed (p.doActionSend id data) ps ∧ (p.doActionSend id data).written ps = _
    cases hid : p.followerHashMap id with
    | none =>
      rw [doActionSend_none hid]
      exact ⟨⟨hlt, hclosed⟩, rfl⟩
    | some ps' =>
      -- the socket written to is open
      have hne : ps ≠ ps' := by
        rintro rfl
        exact hclosed id hid
      rw [doActionSend_some hid]
      exact ⟨⟨hlt, hclosed⟩, Function.update_of_ne hne ..⟩
  | close id =>
    show Closed (p.doActionClose id) ps ∧ (p.doActionClose id).written ps = _
    rw [doActionClose_eq]
    refine ⟨⟨hlt, fun id' hps => ?_⟩, rfl⟩
    by_cases hid' : id' = id
    · simp [hid'] at hps
    · exact hclosed id' (by simpa [Function.update_of_ne hid'] using hps)

theorem Closed.deliver (h : Closed p ps) (ds : List Delivery) :
    (p.deliver ds).written ps = p.written ps := by
  induction ds generalizing p with
  | nil => rfl
  | cons d ds ih =>
    obtain ⟨hclosed, hwritten⟩ := h.perform d.taken
    rw [deliver_cons, ih hclosed, hwritten]

/-- The bytes of a connection that were taken. -/
def takenBytes (cltId : UInt16) (ds : List Delivery) : List UInt8 :=
  (untilClose cltId ds).flatMap fun d => d.taken.sentTo cltId

theorem untilClose_cons (cltId : UInt16) (d : Delivery) (ds : List Delivery) :
    untilClose cltId (d :: ds) =
      if d.action = .close cltId then [] else d :: untilClose cltId ds := by
  by_cases h : d.action = .close cltId <;> simp [untilClose, h]

/-- An action other than its CLOSE keeps the socket of a connection, and writes to it what it sends
    on the connection. -/
theorem SocketsOpened.perform_written (h : SocketsOpened p) (hps : p.followerHashMap id = some ps)
    (hopen : a ≠ .close id) :
    (p.perform a).followerHashMap id = some ps ∧
      ((p.perform a).written ps).flatten = (p.written ps).flatten ++ a.sentTo id := by
  cases a with
  | connect id' =>
    show (p.doActionConnect id').followerHashMap id = some ps ∧
      ((p.doActionConnect id').written ps).flatten = _
    cases hid : p.followerHashMap id' with
    | some ps' =>
      -- also when the id is the one of the connection
      rw [doActionConnect_some hid]
      exact ⟨hps, by simp [ServerAction.sentTo]⟩
    | none =>
      have hne : id ≠ id' := by
        rintro rfl
        rw [hid] at hps
        cases hps
      rw [doActionConnect_none hid]
      exact ⟨(Function.update_of_ne hne ..).trans hps, by simp [ServerAction.sentTo]⟩
  | send id' data =>
    show (p.doActionSend id' data).followerHashMap id = some ps ∧
      ((p.doActionSend id' data).written ps).flatten = _
    by_cases hid' : id' = id
    · subst hid'
      rw [doActionSend_some hps]
      exact ⟨hps, by simp [ServerAction.sentTo]⟩
    · have hsent : (ServerAction.send id' data).sentTo id = [] := by
        simp [ServerAction.sentTo, hid']
      rw [hsent, List.append_nil]
      cases hid : p.followerHashMap id' with
      | none =>
        rw [doActionSend_none hid]
        exact ⟨hps, rfl⟩
      | some ps' =>
        -- another connection has another socket
        have hne : ps ≠ ps' := by
          rintro rfl
          exact hid' (h.injective id' id ps hid hps)
        rw [doActionSend_some hid]
        exact ⟨hps, by simp [Function.update_of_ne hne]⟩
  | close id' =>
    have hne : id ≠ id' := by
      rintro rfl
      exact hopen rfl
    show (p.doActionClose id').followerHashMap id = some ps ∧
      ((p.doActionClose id').written ps).flatten = _
    rw [doActionClose_eq]
    exact ⟨(Function.update_of_ne hne ..).trans hps, by simp [ServerAction.sentTo]⟩

/-- Its CLOSE closes the socket of a connection. -/
theorem SocketsOpened.perform_close (h : SocketsOpened p) (hps : p.followerHashMap id = some ps) :
    Closed (p.perform (.close id)) ps ∧ (p.perform (.close id)).written ps = p.written ps := by
  show Closed (p.doActionClose id) ps ∧ (p.doActionClose id).written ps = p.written ps
  rw [doActionClose_eq]
  refine ⟨⟨h.opened id ps hps, fun id' hps' => ?_⟩, rfl⟩
  by_cases hid' : id' = id
  · simp [hid'] at hps'
  · have hold : p.followerHashMap id' = some ps := by
      simpa [Function.update_of_ne hid'] using hps'
    exact hid' (h.injective id' id ps hold hps)

theorem taken_eq_close_iff : d.taken = .close id ↔ d.action = .close id := by
  cases h : d.action <;> simp [Delivery.taken, h]

/-- The socket of a connection receives what is taken up to its CLOSE. -/
theorem SocketsOpened.deliver_written (h : SocketsOpened p) (hps : p.followerHashMap id = some ps)
    (ds : List Delivery) :
    ((p.deliver ds).written ps).flatten = (p.written ps).flatten ++ takenBytes id ds := by
  induction ds generalizing p with
  | nil => simp [FollowerProxy.deliver, takenBytes, untilClose]
  | cons d ds ih =>
    rw [deliver_cons, takenBytes, untilClose_cons]
    by_cases hclose : d.action = .close id
    · -- nothing is written to it any more
      rw [taken_close hclose, if_pos hclose]
      obtain ⟨hclosed, hwritten⟩ := h.perform_close hps
      rw [hclosed.deliver, hwritten]
      simp
    · have hopen : d.taken ≠ .close id := fun hcon => hclose (taken_eq_close_iff.mp hcon)
      obtain ⟨hps', hwritten⟩ := h.perform_written hps hopen
      rw [ih (h.perform d.taken) hps', hwritten, if_neg hclose, List.flatMap_cons,
        List.append_assoc]
      rfl

/-! ### Whole payloads -/

theorem length_sentTo_taken_le (d : Delivery) (id : UInt16) :
    (d.taken.sentTo id).length ≤ (d.action.sentTo id).length := by
  cases h : d.action with
  | connect id' => simp [taken_connect h, ServerAction.sentTo]
  | send id' data =>
    rw [taken_send h]
    by_cases hid : id' = id
    · simp [ServerAction.sentTo, hid]
    · simp [ServerAction.sentTo, hid]
  | close id' => simp [taken_close h, ServerAction.sentTo]

/-- The bytes of an entry are taken exactly when the `write` takes as many. -/
theorem sentTo_taken_eq_iff (d : Delivery) (id : UInt16) :
    d.taken.sentTo id = d.action.sentTo id ↔
      ∀ data, d.action = .send id data → d.accepted = data.length := by
  have hle := d.accepted_le
  cases h : d.action with
  | connect id' => simp [taken_connect h, ServerAction.sentTo]
  | close id' => simp [taken_close h, ServerAction.sentTo]
  | send id' data =>
    rw [h] at hle
    simp only [ServerAction.data] at hle
    rw [taken_send h]
    by_cases hid : id' = id
    · simp only [ServerAction.sentTo, if_pos hid, ServerAction.send.injEq, and_imp]
      constructor
      · rintro htake _ - rfl
        have hlen := congrArg List.length htake
        rw [List.length_take] at hlen
        omega
      · intro hdata
        exact List.take_of_length_le (Nat.le_of_eq (hdata data hid rfl).symm)
    · simp [ServerAction.sentTo, hid]

/-- The taken bytes are the payloads exactly when each `write` takes all bytes. -/
theorem takenBytes_eq_stream_iff (id : UInt16) (ds : List Delivery) :
    takenBytes id ds = stream id ds ↔
      ∀ d ∈ untilClose id ds, ∀ data, d.action = .send id data → d.accepted = data.length := by
  unfold takenBytes stream
  induction untilClose id ds with
  | nil => simp
  | cons d ds ih =>
    rw [List.flatMap_cons, List.flatMap_cons, List.forall_mem_cons, ← sentTo_taken_eq_iff, ← ih]
    constructor
    · intro h
      -- neither part can be longer than it should be
      have hrest : (ds.flatMap fun d => d.taken.sentTo id).length ≤
          (ds.flatMap fun d => d.action.sentTo id).length := by
        rw [List.length_flatMap, List.length_flatMap]
        exact List.sum_le_sum fun d _ => length_sentTo_taken_le d id
      have hlen := congrArg List.length h
      rw [List.length_append, List.length_append] at hlen
      have hhead := length_sentTo_taken_le d id
      exact List.append_inj h (by omega)
    · rintro ⟨hhead, hrest⟩
      rw [hhead, hrest]

/-! ### Every sequence -/

theorem deliverAll_append (ds ds' : List Delivery) :
    deliverAll (ds ++ ds') = (deliverAll ds).deliver ds' := List.foldl_append ..

/-- A known id comes from a CONNECT without a CLOSE after it. -/
theorem known_connect (h : (deliverAll ds).followerHashMap id = some ps) :
    ∃ before d after, ds = before ++ d :: after ∧ d.action = .connect id ∧
      ∀ c ∈ after, c.action ≠ .close id := by
  -- the last entry is the CONNECT, or the id was known before it
  induction ds using List.reverseRecOn with
  | nil => cases h
  | append_singleton ds e ih =>
    have hlast : deliverAll (ds ++ [e]) = (deliverAll ds).perform e.taken := deliverAll_append ..
    rw [hlast] at h
    have hold (hknown : (deliverAll ds).followerHashMap id = some ps) (he : e.action ≠ .close id) :
        ∃ before d after, ds ++ [e] = before ++ d :: after ∧ d.action = .connect id ∧
          ∀ c ∈ after, c.action ≠ .close id := by
      obtain ⟨before, d, after, rfl, hd, hafter⟩ := ih hknown
      refine ⟨before, d, after ++ [e], by simp, hd, fun c hc => ?_⟩
      obtain hc | hc := List.mem_append.mp hc
      · exact hafter c hc
      · rw [List.mem_singleton.mp hc]
        exact he
    cases he : e.action with
    | connect id' =>
      rw [taken_connect he] at h
      by_cases hid : id' = id
      · exact ⟨ds, e, [], rfl, by rw [he, hid], by simp⟩
      · refine hold ?_ (by simp [he])
        simp only [FollowerProxy.perform] at h
        cases hid' : (deliverAll ds).followerHashMap id' with
        | some ps' => rwa [doActionConnect_some hid'] at h
        | none =>
          rw [doActionConnect_none hid'] at h
          simpa [Function.update_of_ne (Ne.symm hid)] using h
    | send id' data =>
      rw [taken_send he] at h
      refine hold ?_ (by simp [he])
      simp only [FollowerProxy.perform] at h
      cases hid' : (deliverAll ds).followerHashMap id' with
      | none => rwa [doActionSend_none hid'] at h
      | some ps' => rwa [doActionSend_some hid'] at h
    | close id' =>
      rw [taken_close he] at h
      simp only [FollowerProxy.perform, doActionClose_eq] at h
      by_cases hid : id = id'
      · simp [hid] at h
      · rw [Function.update_of_ne hid] at h
        exact hold h (by simp [he, Ne.symm hid])

/-- With distinct ids a CONNECT opens a new socket. -/
theorem DistinctIds.unknown {before after : List Delivery}
    (h : DistinctIds (before ++ d :: after)) (hd : d.action = .connect id) :
    (deliverAll before).followerHashMap id = none := by
  by_contra hcon
  obtain ⟨ps, hps⟩ := Option.ne_none_iff_exists'.mp hcon
  obtain ⟨before', d', between, rfl, hd', hopen⟩ := known_connect hps
  obtain ⟨c, hc, hclose⟩ := h before' id between after d' d (by simp) hd' hd
  exact hopen c hc hclose

/-- What the socket of a connection receives. -/
theorem deliverAll_written {before after : List Delivery}
    (h : DistinctIds (before ++ d :: after)) (hd : d.action = .connect id) :
    ((deliverAll (before ++ d :: after)).written (deliverAll before).sockets).flatten =
      takenBytes id after := by
  have hunknown := h.unknown hd
  have hopened : SocketsOpened (deliverAll before) := socketsOpened_new.deliver before
  rw [deliverAll_append, deliver_cons, taken_connect hd]
  have hknown : ((deliverAll before).perform (.connect id)).followerHashMap id =
      some (deliverAll before).sockets := by
    simp [FollowerProxy.perform, doActionConnect_none hunknown]
  have hnil : ((deliverAll before).perform (.connect id)).written (deliverAll before).sockets =
      [] := by
    simp [FollowerProxy.perform, doActionConnect_none hunknown,
      hopened.unused _ (Nat.le_refl _)]
  rw [(hopened.perform _).deliver_written hknown, hnil]
  rfl

/-- **A replica delivers whole streams**, when open connections have distinct ids, exactly when each
    `write` to a connection takes all bytes. -/
theorem deliversStreams_iff (h : DistinctIds ds) : DeliversStreams ds ↔ WholeWrites ds := by
  constructor
  · intro hstreams before d after id hds hd
    have hstream := hstreams before d after id hds hd
    subst hds
    rw [deliverAll_written h hd] at hstream
    exact (takenBytes_eq_stream_iff id after).mp hstream
  · intro hwhole before d after id hds hd
    have hwrites := hwhole before d after id hds hd
    subst hds
    rw [deliverAll_written h hd]
    exact (takenBytes_eq_stream_iff id after).mpr hwrites

/-- The entries of one connection, which sends two bytes. -/
def oneSend (accepted : Nat) (h : accepted ≤ 2) : List Delivery :=
  [⟨.connect 7, 0, Nat.le_refl 0⟩, ⟨.send 7 [1, 2], accepted, h⟩]

/-- There is one CONNECT only. -/
theorem distinctIds_oneSend {accepted : Nat} (h : accepted ≤ 2) : DistinctIds (oneSend accepted h) := by
  intro before cltId between after d d' hds hd hd'
  have hlen := congrArg List.length hds
  simp [oneSend] at hlen
  obtain ⟨rfl, rfl, rfl⟩ : before = [] ∧ between = [] ∧ after = [] := by
    refine ⟨List.eq_nil_of_length_eq_zero ?_, List.eq_nil_of_length_eq_zero ?_,
      List.eq_nil_of_length_eq_zero ?_⟩ <;> omega
  simp only [oneSend, List.nil_append, List.cons.injEq] at hds
  rw [← hds.2.1] at hd'
  cases hd'

/-- The two bytes are taken. -/
theorem deliversStreams_oneSend : DeliversStreams (oneSend 2 (Nat.le_refl 2)) := by
  refine (deliversStreams_iff (distinctIds_oneSend _)).mpr ?_
  intro before d after id hds _ c hc data hdata
  have hmem : c ∈ oneSend 2 (Nat.le_refl 2) := by
    rw [hds]
    exact List.mem_append_right before (List.mem_cons_of_mem d (List.takeWhile_subset _ hc))
  simp only [oneSend, List.mem_cons, List.not_mem_nil, or_false] at hmem
  obtain rfl | rfl := hmem
  · cases hdata
  · cases hdata
    rfl

/-- The `write` takes one byte only. -/
theorem not_deliversStreams : ¬ ∀ ds, DistinctIds ds → DeliversStreams ds := by
  intro hall
  have hstreams := hall (oneSend 1 (by decide)) (distinctIds_oneSend _) [] _ _ 7 rfl rfl
  revert hstreams
  decide

end Apus
