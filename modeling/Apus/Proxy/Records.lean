import Apus.Log.Basic

namespace Apus

open Lib

/-!
# Stored records

The persistent copy of the client entries (`proxy.c`, `db-interface.c`): every entry is stored as
the proxy message that starts at its `clt_id`, a snapshot is the concatenation of the stored
messages, and a joining server replays it message by message.

A message is laid over an entry from offset `CLT_ID_OFF` on.  Its header agrees with the entry,
`clt_id` and `type` being next to each other, but the union of a `proxy_send_msg` starts 8 bytes
after the header, where the entry has its reply array.

* `stablestorageSaveRequest` / `dumpRecords` / `stablestorageLoadRecords` — the three functions;
* `loadRecords_of_holds` — what a replay of stored records does;
* `records_replay_iff` — when that is what the entries do when they are applied.
-/

/-! ### Messages -/

/-- Types of client entries. -/
def CONNECT : UInt8 := 4
def SEND : UInt8 := 5
def CLOSE : UInt8 := 6

/-- `offsetof(dare_log_entry_t, clt_id)`. -/
def CLT_ID_OFF : Nat := 24
/-- `sizeof(proxy_connect_msg)` and `sizeof(proxy_close_msg)`: the header alone. -/
def PROXY_CONNECT_MSG_SIZE : Nat := 4
def PROXY_CLOSE_MSG_SIZE : Nat := 4
/-- `sizeof(proxy_send_msg)`: the union is aligned to 8 bytes and takes 16. -/
def PROXY_SEND_MSG_FIXED : Nat := 24
/-- `offsetof(proxy_send_msg, data.cmd.len)`. -/
def SEND_LEN_OFF : Nat := 8
/-- `offsetof(proxy_send_msg, data.cmd.cmd)`. -/
def SEND_CMD_OFF : Nat := 10

/-- `PROXY_SEND_MSG_SIZE`. -/
def proxySendMsgSize (m : Mem) (msg : Nat) : Nat :=
  (getU16 m (msg + SEND_LEN_OFF)).toNat + PROXY_SEND_MSG_FIXED

/-- What the proxy does to the server of its replica. -/
inductive ServerAction
  | connect (connectionId : UInt16)
  | send (connectionId : UInt16) (data : List UInt8)
  | close (connectionId : UInt16)
  deriving DecidableEq, Repr

/-- `do_action_to_server`. -/
def doActionToServer (cltId : UInt16) (type : UInt8) (data : List UInt8) : Option ServerAction :=
  if type = CONNECT then some (.connect cltId)
  else if type = SEND then some (.send cltId data)
  else if type = CLOSE then some (.close cltId)
  else none

/-- `stablestorage_save_request`: the record stored, if any. -/
def stablestorageSaveRequest (m : Mem) (data : Nat) : Option (List UInt8) :=
  if getU8 m (data + 2) = CONNECT then some (bytes m data PROXY_CONNECT_MSG_SIZE)
  else if getU8 m (data + 2) = SEND then some (bytes m data (proxySendMsgSize m data))
  else if getU8 m (data + 2) = CLOSE then some (bytes m data PROXY_CLOSE_MSG_SIZE)
  else none

/-- `dump_records`: the records one after the other. -/
def dumpRecords (buf : Mem) : UInt32 → List (List UInt8) → Mem
  | _, [] => buf
  | len, record :: records =>
    dumpRecords (store buf len.toNat record) (len + UInt32.ofNat record.length) records

/-- `stablestorage_load_records`: the actions performed and the records stored again.  A message
    of another type is not skipped, so that the loop does not end. -/
def stablestorageLoadRecords (buf : Mem) (size : UInt32) :
    Nat → UInt32 → Option (List ServerAction × List (List UInt8))
  | 0, _ => none
  | fuel + 1, len =>
    if len < size then
      let header := len.toNat
      let connectionId := getU16 buf header
      if getU8 buf (header + 2) = SEND then
        let cmdLen := (getU16 buf (header + SEND_LEN_OFF)).toNat
        (stablestorageLoadRecords buf size fuel
          (len + UInt32.ofNat (proxySendMsgSize buf header))).map fun r =>
            (.send connectionId (bytes buf (header + SEND_CMD_OFF) cmdLen) :: r.1,
              bytes buf header (proxySendMsgSize buf header) :: r.2)
      else if getU8 buf (header + 2) = CONNECT then
        (stablestorageLoadRecords buf size fuel
          (len + UInt32.ofNat PROXY_CONNECT_MSG_SIZE)).map fun r =>
            (.connect connectionId :: r.1, bytes buf header PROXY_CONNECT_MSG_SIZE :: r.2)
      else if getU8 buf (header + 2) = CLOSE then
        (stablestorageLoadRecords buf size fuel
          (len + UInt32.ofNat PROXY_CLOSE_MSG_SIZE)).map fun r =>
            (.close connectionId :: r.1, bytes buf header PROXY_CLOSE_MSG_SIZE :: r.2)
      else stablestorageLoadRecords buf size fuel len
    else some ([], [])

/-! ### Client entries -/

/-- A CONNECT, SEND or CLOSE entry: the memory it lies in, and its offset. -/
structure ClientEntry where
  mem : Mem
  offset : Nat
  isClient : getU8 mem (offset + 26) = CONNECT ∨ getU8 mem (offset + 26) = SEND ∨
    getU8 mem (offset + 26) = CLOSE

namespace ClientEntry

def type (e : ClientEntry) : UInt8 := getU8 e.mem (e.offset + 26)

/-- `entry->data.cmd.len`. -/
def cmdLen (e : ClientEntry) : Nat := (getU16 e.mem (e.offset + DATA_OFF)).toNat

/-- The action when the entry is applied, on a server that is not leader. -/
def applied (e : ClientEntry) : Option ServerAction :=
  doActionToServer (getU16 e.mem (e.offset + CLT_ID_OFF)) e.type
    (bytes e.mem (e.offset + CMD_OFF) e.cmdLen)

/-- The record that `persist_new_entries` stores. -/
def record (e : ClientEntry) : Option (List UInt8) :=
  stablestorageSaveRequest e.mem (e.offset + CLT_ID_OFF)

/-- Bytes of the record. -/
def recordSize (e : ClientEntry) : Nat :=
  if e.type = SEND then proxySendMsgSize e.mem (e.offset + CLT_ID_OFF) else PROXY_CONNECT_MSG_SIZE

/-- The reply bytes from `reply[4]` on repeat the length of the command, and what follows them
    repeats the command. -/
def ReplyRepeatsCmd (e : ClientEntry) : Prop :=
  getU16 e.mem (e.offset + REPLY_OFF + 4) = getU16 e.mem (e.offset + DATA_OFF) ∧
    ∀ i < e.cmdLen, e.mem (e.offset + REPLY_OFF + 6 + i) = e.mem (e.offset + CMD_OFF + i)

end ClientEntry

/-- Bytes that a list of records takes. -/
abbrev recordsLen (records : List (List UInt8)) : Nat := (records.map List.length).sum

/-- The records of the entries are stored, dumped one after the other into a buffer, and the
    replay of that buffer, whose length is given as an `uint32_t`, ends after the actions of the
    entries. -/
def ReplaysAsApplied (es : List ClientEntry) : Prop :=
  ∃ size : UInt32, size.toNat = recordsLen (es.filterMap ClientEntry.record) ∧
    ∀ buf, ∃ fuel r,
      stablestorageLoadRecords (dumpRecords buf 0 (es.filterMap ClientEntry.record)) size fuel 0 =
        some r ∧ r.1 = es.filterMap ClientEntry.applied

/-! ### Storing and dumping -/

/-- The records lie one after the other from `o` on. -/
def HoldsRecords (buf : Mem) : Nat → List (List UInt8) → Prop
  | _, [] => True
  | o, record :: records =>
    bytes buf o record.length = record ∧ HoldsRecords buf (o + record.length) records

/-- The position after a record, as long as the records fit an `uint32_t`. -/
theorem toNat_add_ofNat {len : UInt32} {n : Nat} (h : len.toNat + n < 4294967296) :
    (len + UInt32.ofNat n).toNat = len.toNat + n := by
  rw [UInt32.toNat_add, UInt32.toNat_ofNat']
  omega

/-- A dump only writes from its position on. -/
theorem dumpRecords_below (records : List (List UInt8)) :
    ∀ (buf : Mem) (len : UInt32), len.toNat + recordsLen records < 4294967296 →
      ∀ x < len.toNat, dumpRecords buf len records x = buf x := by
  induction records with
  | nil => intro buf len _ x _; rfl
  | cons record records ih =>
    intro buf len hfit x hx
    simp only [recordsLen, List.map_cons, List.sum_cons] at hfit
    have hnext : (len + UInt32.ofNat record.length).toNat = len.toNat + record.length :=
      toNat_add_ofNat (by omega)
    rw [dumpRecords, ih _ _ (by rw [hnext]; simp only [recordsLen]; omega) x (by omega)]
    exact store_of_outside (.inl hx)

/-- A dump holds its records. -/
theorem holdsRecords_dump (records : List (List UInt8)) :
    ∀ (buf : Mem) (len : UInt32), len.toNat + recordsLen records < 4294967296 →
      HoldsRecords (dumpRecords buf len records) len.toNat records := by
  induction records with
  | nil => intro buf len _; trivial
  | cons record records ih =>
    intro buf len hfit
    simp only [recordsLen, List.map_cons, List.sum_cons] at hfit
    have hnext : (len + UInt32.ofNat record.length).toNat = len.toNat + record.length :=
      toNat_add_ofNat (by omega)
    have hrest : (len + UInt32.ofNat record.length).toNat + recordsLen records < 4294967296 := by
      rw [hnext]; simp only [recordsLen]; omega
    refine ⟨?_, ?_⟩
    · -- the later records are written behind this one
      rw [dumpRecords, bytes_congr fun x _ hhi =>
        dumpRecords_below records _ _ hrest x (by omega), bytes_store]
    · rw [dumpRecords, ← hnext]
      exact ih _ _ hrest

namespace ClientEntry

/-- The record as a byte string. -/
def recordBytes (e : ClientEntry) : List UInt8 :=
  bytes e.mem (e.offset + CLT_ID_OFF) e.recordSize

/-- The action when the record is replayed: the length and the data of a command are read where
    the entry has its reply array. -/
def replayed (e : ClientEntry) : ServerAction :=
  if e.type = CONNECT then .connect (getU16 e.mem (e.offset + CLT_ID_OFF))
  else if e.type = SEND then
    .send (getU16 e.mem (e.offset + CLT_ID_OFF))
      (bytes e.mem (e.offset + CLT_ID_OFF + SEND_CMD_OFF)
        (getU16 e.mem (e.offset + CLT_ID_OFF + SEND_LEN_OFF)).toNat)
  else .close (getU16 e.mem (e.offset + CLT_ID_OFF))

@[simp] theorem length_recordBytes (e : ClientEntry) : e.recordBytes.length = e.recordSize :=
  length_bytes _ _ _

theorem header_le_recordSize (e : ClientEntry) : 4 ≤ e.recordSize := by
  unfold recordSize proxySendMsgSize PROXY_SEND_MSG_FIXED PROXY_CONNECT_MSG_SIZE
  split <;> omega

/-- Every client entry is stored. -/
theorem record_eq (e : ClientEntry) : e.record = some e.recordBytes := by
  have htype : getU8 e.mem (e.offset + CLT_ID_OFF + 2) = e.type := rfl
  simp only [record, stablestorageSaveRequest, recordBytes, recordSize, htype]
  obtain h | h | h : e.type = CONNECT ∨ e.type = SEND ∨ e.type = CLOSE := e.isClient
  · simp [h, CONNECT, SEND]
  · simp [h, CONNECT, SEND]
  · simp [h, CONNECT, SEND, CLOSE, PROXY_CONNECT_MSG_SIZE, PROXY_CLOSE_MSG_SIZE]

theorem filterMap_record (es : List ClientEntry) :
    es.filterMap record = es.map recordBytes := by
  induction es with
  | nil => rfl
  | cons e es ih => rw [List.filterMap_cons_some e.record_eq, ih, List.map_cons]

end ClientEntry

/-! ### Replaying -/

/-- One iteration of the replay, at the record of an entry. -/
theorem loadRecords_step {buf : Mem} {size len : UInt32} (e : ClientEntry) (fuel : Nat)
    (hlen : len < size) (hheld : bytes buf len.toNat e.recordSize = e.recordBytes) :
    stablestorageLoadRecords buf size (fuel + 1) len =
      (stablestorageLoadRecords buf size fuel (len + UInt32.ofNat e.recordSize)).map fun r =>
        (e.replayed :: r.1, e.recordBytes :: r.2) := by
  have hsize := e.header_le_recordSize
  have htype : getU8 buf (len.toNat + 2) = e.type := getU8_part hheld 2 (by omega)
  have hid : getU16 buf len.toNat = getU16 e.mem (e.offset + CLT_ID_OFF) :=
    getU16_part hheld 0 (by omega)
  rw [stablestorageLoadRecords, if_pos hlen]
  simp only [htype, hid, ClientEntry.replayed]
  obtain h | h | h : e.type = CONNECT ∨ e.type = SEND ∨ e.type = CLOSE := e.isClient
  · have hrec : e.recordSize = PROXY_CONNECT_MSG_SIZE := by
      simp [ClientEntry.recordSize, h, CONNECT, SEND]
    rw [hrec] at hheld ⊢
    simp [h, hheld, CONNECT, SEND]
  · have hrec : e.recordSize = proxySendMsgSize e.mem (e.offset + CLT_ID_OFF) := by
      simp [ClientEntry.recordSize, h]
    -- the length field, and then the command, are those of the record
    have hcmdLen := getU16_part hheld SEND_LEN_OFF
      (by rw [hrec]; simp only [SEND_LEN_OFF, proxySendMsgSize, PROXY_SEND_MSG_FIXED]; omega)
    have hsize' : proxySendMsgSize buf len.toNat = e.recordSize := by
      rw [hrec, proxySendMsgSize, proxySendMsgSize, hcmdLen]
    have hcmd := bytes_part hheld SEND_CMD_OFF
      (getU16 e.mem (e.offset + CLT_ID_OFF + SEND_LEN_OFF)).toNat
      (by rw [hrec]; simp only [SEND_CMD_OFF, proxySendMsgSize, PROXY_SEND_MSG_FIXED]; omega)
    rw [hsize', hcmdLen, hcmd, hheld]
    simp [h, CONNECT, SEND]
  · have hrec : e.recordSize = PROXY_CLOSE_MSG_SIZE := by
      simp [ClientEntry.recordSize, h, CLOSE, SEND, PROXY_CONNECT_MSG_SIZE, PROXY_CLOSE_MSG_SIZE]
    rw [hrec] at hheld ⊢
    simp [h, hheld, CONNECT, SEND, CLOSE]

/-- The replay of stored records, which ends after one iteration for each of them. -/
theorem loadRecords_of_holds {buf : Mem} {size : UInt32} (es : List ClientEntry) :
    ∀ (len : UInt32), HoldsRecords buf len.toNat (es.map ClientEntry.recordBytes) →
      len.toNat + (es.map ClientEntry.recordSize).sum = size.toNat →
      ∀ fuel, stablestorageLoadRecords buf size fuel len =
        if es.length < fuel then
          some (es.map ClientEntry.replayed, es.map ClientEntry.recordBytes)
        else none := by
  induction es with
  | nil =>
    intro len _ hend fuel
    have hdone : ¬ len < size := by
      simp only [List.map_nil, List.sum_nil] at hend
      rw [UInt32.lt_iff_toNat_lt]
      omega
    cases fuel with
    | zero => simp [stablestorageLoadRecords]
    | succ fuel => simp [stablestorageLoadRecords, hdone]
  | cons e es ih =>
    intro len hheld hend fuel
    obtain ⟨hfirst, hrest⟩ := hheld
    rw [ClientEntry.length_recordBytes] at hfirst hrest
    simp only [List.map_cons, List.sum_cons] at hend
    have hsize := e.header_le_recordSize
    have hmax : size.toNat < 4294967296 := size.toNat_lt
    -- the offset does not wrap
    have hnext : (len + UInt32.ofNat e.recordSize).toNat = len.toNat + e.recordSize :=
      toNat_add_ofNat (by omega)
    cases fuel with
    | zero => simp [stablestorageLoadRecords]
    | succ fuel =>
      have hlt : len < size := by rw [UInt32.lt_iff_toNat_lt]; omega
      rw [loadRecords_step e fuel hlt hfirst,
        ih _ (by rw [hnext]; exact hrest) (by omega) fuel]
      by_cases h : es.length < fuel <;> simp [h]

/-! ### When a replay is right -/

namespace ClientEntry

/-- Every client entry is an action. -/
theorem applied_isSome (e : ClientEntry) : e.applied.isSome := by
  unfold applied doActionToServer
  obtain h | h | h : e.type = CONNECT ∨ e.type = SEND ∨ e.type = CLOSE := e.isClient
  · simp [h]
  · simp [h, CONNECT, SEND]
  · simp [h, CONNECT, SEND, CLOSE]

/-- Only the data of a command can be replayed wrong. -/
theorem applied_eq_replayed_iff (e : ClientEntry) :
    e.applied = some e.replayed ↔ (e.type = SEND → e.ReplyRepeatsCmd) := by
  unfold applied doActionToServer replayed
  obtain h | h | h : e.type = CONNECT ∨ e.type = SEND ∨ e.type = CLOSE := e.isClient
  · simp [h, CONNECT, SEND]
  · have hdata : bytes e.mem (e.offset + CMD_OFF) e.cmdLen =
        bytes e.mem (e.offset + CLT_ID_OFF + SEND_CMD_OFF)
          (getU16 e.mem (e.offset + CLT_ID_OFF + SEND_LEN_OFF)).toNat ↔ e.ReplyRepeatsCmd := by
      constructor
      · intro heq
        have hlen := congrArg List.length heq
        rw [length_bytes, length_bytes] at hlen
        rw [← hlen] at heq
        exact ⟨(UInt16.toNat_inj.mp hlen).symm, fun i hi => (bytes_eq_iff.mp heq i hi).symm⟩
      · rintro ⟨hlen, hcmd⟩
        have hlen' : (getU16 e.mem (e.offset + CLT_ID_OFF + SEND_LEN_OFF)).toNat = e.cmdLen :=
          congrArg UInt16.toNat hlen
        rw [hlen']
        exact bytes_eq_iff.mpr fun i hi => (hcmd i hi).symm
    simp [h, CONNECT, SEND, hdata]
  · simp [h, CONNECT, SEND, CLOSE]

end ClientEntry

/-- A mapped list is a filtered one that keeps every element. -/
theorem map_eq_filterMap_iff {α β : Type} {f : α → Option β} {g : α → β}
    (hf : ∀ a, (f a).isSome) (l : List α) :
    l.map g = l.filterMap f ↔ ∀ a ∈ l, f a = some (g a) := by
  induction l with
  | nil => simp
  | cons a l ih =>
    obtain ⟨b, hb⟩ := Option.isSome_iff_exists.mp (hf a)
    rw [List.map_cons, List.filterMap_cons_some hb, List.cons.injEq, ih, List.forall_mem_cons, hb,
      Option.some.injEq]
    exact and_congr eq_comm Iff.rfl

/-- A replay performs the actions of the entries when each record gives the action of its entry. -/
theorem replaysAsApplied_iff_forall (es : List ClientEntry) :
    ReplaysAsApplied es ↔ (es.map ClientEntry.recordSize).sum < 4294967296 ∧
      ∀ e ∈ es, e.applied = some e.replayed := by
  have hlens : recordsLen (es.filterMap ClientEntry.record) =
      (es.map ClientEntry.recordSize).sum := by
    rw [recordsLen, ClientEntry.filterMap_record, List.map_map]
    exact congrArg List.sum (List.map_congr_left fun e _ => e.length_recordBytes)
  have hload : ∀ (size : UInt32) (buf : Mem) (fuel : Nat),
      size.toNat = (es.map ClientEntry.recordSize).sum →
      stablestorageLoadRecords (dumpRecords buf 0 (es.filterMap ClientEntry.record)) size fuel 0 =
        if es.length < fuel then
          some (es.map ClientEntry.replayed, es.map ClientEntry.recordBytes)
        else none := by
    intro size buf fuel hsize
    have hfit := size.toNat_lt
    have hheld := holdsRecords_dump (es.filterMap ClientEntry.record) buf 0
      (by rw [hlens]; simp only [UInt32.toNat_zero]; omega)
    rw [ClientEntry.filterMap_record] at hheld ⊢
    exact loadRecords_of_holds es 0 hheld (by simp [hsize]) fuel
  rw [← map_eq_filterMap_iff ClientEntry.applied_isSome]
  constructor
  · rintro ⟨size, hsize, hreplay⟩
    rw [hlens] at hsize
    obtain ⟨fuel, r, hr, hacts⟩ := hreplay fun _ => 0
    rw [hload size _ fuel hsize] at hr
    split at hr
    · cases hr
      exact ⟨hsize ▸ size.toNat_lt, hacts⟩
    · cases hr
  · rintro ⟨hfit, hacts⟩
    have hsize : (UInt32.ofNat (es.map ClientEntry.recordSize).sum).toNat =
        (es.map ClientEntry.recordSize).sum := by
      rw [UInt32.toNat_ofNat']
      exact Nat.mod_eq_of_lt hfit
    refine ⟨UInt32.ofNat (es.map ClientEntry.recordSize).sum, by rw [hsize, hlens], ?_⟩
    intro buf
    refine ⟨es.length + 1, (es.map ClientEntry.replayed, es.map ClientEntry.recordBytes), ?_, ?_⟩
    · rw [hload _ buf _ hsize, if_pos (Nat.lt_succ_self _)]
    · exact hacts

/-- Stored records replay as the entries they came from exactly when, for every SEND entry, the
    reply array from `reply[4]` on repeats the length and the data of the command. -/
theorem records_replay_iff (es : List ClientEntry) :
    ReplaysAsApplied es ↔ (es.map ClientEntry.recordSize).sum < 4294967296 ∧
      ∀ e ∈ es, e.type = SEND → e.ReplyRepeatsCmd := by
  rw [replaysAsApplied_iff_forall]
  refine and_congr Iff.rfl (forall₂_congr fun e _ => ?_)
  exact e.applied_eq_replayed_iff

/-- A SEND entry of one byte that no server has acknowledged. -/
def sendOneByte : ClientEntry where
  mem := fun x => if x = 26 then SEND else if x = 48 then 1 else if x = 50 then 7 else 0
  offset := 0
  isClient := by decide

/-- It is replayed as a SEND without data. -/
theorem not_replaysAsApplied_sendOneByte : ¬ ReplaysAsApplied [sendOneByte] := by
  rw [replaysAsApplied_iff_forall]
  rintro ⟨_, h⟩
  have happlied : sendOneByte.applied = some (.send 0 [7]) := by decide
  have hreplayed : sendOneByte.replayed = .send 0 [] := by decide
  have hsend := h sendOneByte (by simp)
  rw [happlied, hreplayed] at hsend
  cases hsend

end Apus
