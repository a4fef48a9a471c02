import Apus.Proxy.Records

namespace Apus

open Lib

/-!
# Loading a snapshot

`stablestorage_load_records` walks a buffer that another server filled.  How far an iteration
moves is decided by the action byte and, for a SEND, by a length inside the message; an action
that is none of the three moves it nowhere.

* `loadReads` — the bytes that the first iterations read;
* `Framed` — the buffer is cut into whole messages that end at its size;
* `loadsTotally_iff` — exactly then the loop ends and stays inside the buffer.
-/

/-! ### One iteration -/

/-- Bytes of the message at `msg`, when its action is one of the three. -/
def messageSize (buf : Mem) (msg : Nat) : Option Nat :=
  if getU8 buf (msg + 2) = SEND then some (proxySendMsgSize buf msg)
  else if getU8 buf (msg + 2) = CONNECT then some PROXY_CONNECT_MSG_SIZE
  else if getU8 buf (msg + 2) = CLOSE then some PROXY_CLOSE_MSG_SIZE
  else none

/-- What the replay of the message at `msg` does to the server. -/
def messageAction (buf : Mem) (msg : Nat) : ServerAction :=
  if getU8 buf (msg + 2) = SEND then
    .send (getU16 buf msg)
      (bytes buf (msg + SEND_CMD_OFF) (getU16 buf (msg + SEND_LEN_OFF)).toNat)
  else if getU8 buf (msg + 2) = CONNECT then .connect (getU16 buf msg)
  else .close (getU16 buf msg)

/-- The offsets that the first `fuel` iterations read: the action, and the whole message, which
    `store_record` copies. -/
def loadReads (buf : Mem) (size : UInt32) : Nat → UInt32 → List Nat
  | 0, _ => []
  | fuel + 1, len =>
    if len < size then
      (len.toNat + 2) ::
        match messageSize buf len.toNat with
        | some n => List.range' len.toNat n ++ loadReads buf size fuel (len + UInt32.ofNat n)
        | none => loadReads buf size fuel len
    else []

/-- Whole messages lie one after the other from an offset on, and the last one ends at `size`. -/
inductive Framed (buf : Mem) (size : Nat) : Nat → Prop
  | done : Framed buf size size
  | message {msg n : Nat} (known : messageSize buf msg = some n) (rest : Framed buf size (msg + n)) :
      Framed buf size msg

/-- The byte string is one that `stablestorage_save_request` stores. -/
def SavedRecord (record : List UInt8) : Prop :=
  ∃ (m : Mem) (data : Nat), stablestorageSaveRequest m data = some record

/-- Loading ends, reads nothing behind the buffer, and splits stored records as they were
    stored. -/
structure LoadsTotally (buf : Mem) (size : UInt32) : Prop where
  ends : ∃ fuel, (stablestorageLoadRecords buf size fuel 0).isSome
  within : ∀ fuel, ∀ x ∈ loadReads buf size fuel 0, x < size.toNat
  splits : ∀ records : List (List UInt8), (∀ record ∈ records, SavedRecord record) →
    HoldsRecords buf 0 records → recordsLen records = size.toNat →
      ∃ fuel actions, stablestorageLoadRecords buf size fuel 0 = some (actions, records)

/-- A message has at least its header. -/
theorem header_le_messageSize {buf : Mem} {msg n : Nat} (h : messageSize buf msg = some n) :
    4 ≤ n := by
  unfold messageSize proxySendMsgSize PROXY_SEND_MSG_FIXED PROXY_CONNECT_MSG_SIZE
    PROXY_CLOSE_MSG_SIZE at h
  grind

/-- What is stored is the message. -/
theorem stablestorageSaveRequest_eq (m : Mem) (data : Nat) :
    stablestorageSaveRequest m data = (messageSize m data).map (bytes m data) := by
  unfold stablestorageSaveRequest messageSize
  by_cases hconnect : getU8 m (data + 2) = CONNECT
  · simp [hconnect, CONNECT, SEND]
  · -- the two functions test the remaining actions in the same order
    simp only [hconnect, if_false]
    split
    · rfl
    · split <;> rfl

/-- One iteration: a message is stored and replayed, and anything else is not skipped. -/
theorem loadRecords_succ (buf : Mem) (size : UInt32) (fuel : Nat) (len : UInt32) :
    stablestorageLoadRecords buf size (fuel + 1) len =
      if len < size then
        match messageSize buf len.toNat with
        | some n => (stablestorageLoadRecords buf size fuel (len + UInt32.ofNat n)).map fun r =>
            (messageAction buf len.toNat :: r.1, bytes buf len.toNat n :: r.2)
        | none => stablestorageLoadRecords buf size fuel len
      else some ([], []) := by
  rw [stablestorageLoadRecords]
  simp only [messageSize, messageAction]
  split
  · split
    · simp
    · split
      · simp
      · split <;> simp
  · rfl

/-- Equal bytes are equal messages. -/
theorem messageSize_congr {m m' : Mem} {o o' n : Nat} (hsize : messageSize m o = some n)
    (heq : bytes m' o' n = bytes m o n) : messageSize m' o' = some n := by
  have hheader := header_le_messageSize hsize
  have haction : getU8 m' (o' + 2) = getU8 m (o + 2) := getU8_part heq 2 (by omega)
  rw [← hsize]
  simp only [messageSize, haction]
  split
  · -- the length of a command is part of its message
    rename_i hsend
    have hn : n = proxySendMsgSize m o := by simpa [messageSize, hsend] using hsize.symm
    have hlen := getU16_part heq SEND_LEN_OFF
      (by rw [hn]; simp only [SEND_LEN_OFF, proxySendMsgSize, PROXY_SEND_MSG_FIXED]; omega)
    rw [proxySendMsgSize, proxySendMsgSize, hlen]
  · rfl

/-! ### Malformed buffers -/

/-- A message with an unknown action is read again and again. -/
theorem loadRecords_of_unknown {buf : Mem} {size len : UInt32} (hlt : len < size)
    (hunknown : messageSize buf len.toNat = none) (fuel : Nat) :
    stablestorageLoadRecords buf size fuel len = none := by
  induction fuel with
  | zero => rfl
  | succ fuel ih => rw [loadRecords_succ, if_pos hlt, hunknown]; exact ih

/-- A loop that ends inside the buffer went over whole messages. -/
theorem framed_of_ends {buf : Mem} {size : UInt32} (fuel : Nat) :
    ∀ len : UInt32, len ≤ size → (stablestorageLoadRecords buf size fuel len).isSome →
      (∀ x ∈ loadReads buf size fuel len, x < size.toNat) → Framed buf size.toNat len.toNat := by
  induction fuel with
  | zero => intro len _ hends _; simp [stablestorageLoadRecords] at hends
  | succ fuel ih =>
    intro len hle hends hreads
    by_cases hlt : len < size
    · cases hknown : messageSize buf len.toNat with
      | none => rw [loadRecords_of_unknown hlt hknown] at hends; cases hends
      | some n =>
        have hheader := header_le_messageSize hknown
        rw [loadRecords_succ, if_pos hlt, hknown, Option.isSome_map] at hends
        simp only [loadReads, if_pos hlt, hknown, List.forall_mem_cons, List.forall_mem_append]
          at hreads
        obtain ⟨-, hmessage, hrest⟩ := hreads
        -- the last byte of the message is read, so that the next offset does not wrap
        have hlast := hmessage (len.toNat + n - 1) (by
          rw [List.mem_range'_1]
          omega)
        have hfit := size.toNat_lt
        have hnext : (len + UInt32.ofNat n).toNat = len.toNat + n := toNat_add_ofNat (by omega)
        refine .message hknown (hnext ▸ ih _ ?_ hends hrest)
        rw [UInt32.le_iff_toNat_le]
        omega
    · have heq : len.toNat = size.toNat := by
        rw [UInt32.le_iff_toNat_le] at hle
        rw [UInt32.lt_iff_toNat_lt] at hlt
        omega
      rw [heq]
      exact .done

/-! ### Well-formed buffers -/

theorem Framed.le {buf : Mem} {size msg : Nat} (h : Framed buf size msg) : msg ≤ size := by
  induction h with
  | done => exact Nat.le_refl size
  | message _ _ ih => omega

/-- Before the end there is a next message. -/
theorem Framed.next {buf : Mem} {size msg : Nat} (h : Framed buf size msg) (hlt : msg < size) :
    ∃ n, messageSize buf msg = some n ∧ Framed buf size (msg + n) := by
  cases h with
  | done => omega
  | message known rest => exact ⟨_, known, rest⟩

/-- Over whole messages the loop ends. -/
theorem Framed.ends {buf : Mem} {size : UInt32} {msg : Nat} (h : Framed buf size.toNat msg) :
    ∀ len : UInt32, len.toNat = msg → ∃ fuel, (stablestorageLoadRecords buf size fuel len).isSome := by
  induction h with
  | done =>
    intro len hlen
    have hdone : ¬ len < size := by rw [UInt32.lt_iff_toNat_lt]; omega
    exact ⟨1, by rw [loadRecords_succ, if_neg hdone]; rfl⟩
  | message known rest ih =>
    intro len hlen
    subst hlen
    have hle := rest.le
    have hfit := size.toNat_lt
    by_cases hlt : len < size
    · obtain ⟨fuel, hfuel⟩ := ih _ (toNat_add_ofNat (by omega))
      refine ⟨fuel + 1, ?_⟩
      rw [loadRecords_succ, if_pos hlt, known, Option.isSome_map]
      exact hfuel
    · exact ⟨1, by rw [loadRecords_succ, if_neg hlt]; rfl⟩

/-- Over whole messages nothing behind the buffer is read. -/
theorem Framed.within {buf : Mem} {size : UInt32} (fuel : Nat) :
    ∀ len : UInt32, Framed buf size.toNat len.toNat →
      ∀ x ∈ loadReads buf size fuel len, x < size.toNat := by
  induction fuel with
  | zero => intro len _ x hx; cases hx
  | succ fuel ih =>
    intro len h x hx
    unfold loadReads at hx
    split at hx
    · rename_i hlt
      rw [UInt32.lt_iff_toNat_lt] at hlt
      obtain ⟨n, hknown, hrest⟩ := h.next hlt
      have hheader := header_le_messageSize hknown
      have hle := hrest.le
      have hfit := size.toNat_lt
      rw [hknown, List.mem_cons, List.mem_append, List.mem_range'_1] at hx
      obtain rfl | hmessage | hlater := hx
      · -- the action byte lies in the header
        omega
      · omega
      · refine ih _ ?_ x hlater
        rw [toNat_add_ofNat (by omega)]
        exact hrest
    · cases hx

/-- Stored records are loaded as they were stored, one iteration for each. -/
theorem loadRecords_saved {buf : Mem} {size : UInt32} (records : List (List UInt8)) :
    ∀ len : UInt32, (∀ record ∈ records, SavedRecord record) →
      HoldsRecords buf len.toNat records → len.toNat + recordsLen records = size.toNat →
        ∃ actions, stablestorageLoadRecords buf size (records.length + 1) len =
          some (actions, records) := by
  induction records with
  | nil =>
    intro len _ _ hend
    have hdone : ¬ len < size := by
      rw [UInt32.lt_iff_toNat_lt]
      simp only [recordsLen, List.map_nil, List.sum_nil] at hend
      omega
    exact ⟨[], by rw [loadRecords_succ, if_neg hdone]⟩
  | cons record records ih =>
    intro len hsaved hheld hend
    obtain ⟨hfirst, hrest⟩ := hheld
    rw [List.forall_mem_cons] at hsaved
    obtain ⟨⟨m, data, hrecord⟩, hsaved⟩ := hsaved
    rw [stablestorageSaveRequest_eq, Option.map_eq_some_iff] at hrecord
    obtain ⟨n, hn, rfl⟩ := hrecord
    simp only [recordsLen, List.map_cons, List.sum_cons, length_bytes] at hend hfirst hrest
    have hsize : messageSize buf len.toNat = some n := messageSize_congr hn hfirst
    have hheader := header_le_messageSize hn
    have hfit := size.toNat_lt
    have hnext : (len + UInt32.ofNat n).toNat = len.toNat + n := toNat_add_ofNat (by omega)
    have hlt : len < size := by rw [UInt32.lt_iff_toNat_lt]; omega
    obtain ⟨actions, hload⟩ := ih (len + UInt32.ofNat n) hsaved (by rw [hnext]; exact hrest)
      (by rw [hnext]; simp only [recordsLen]; omega)
    refine ⟨messageAction buf len.toNat :: actions, ?_⟩
    rw [List.length_cons, loadRecords_succ, if_pos hlt, hsize]
    simp only [hload, Option.map_some, hfirst]

/-! ### Totality -/

/-- Loading is total on exactly the buffers that whole messages fill. -/
theorem loadsTotally_iff (buf : Mem) (size : UInt32) :
    LoadsTotally buf size ↔ Framed buf size.toNat 0 := by
  constructor
  · intro h
    obtain ⟨fuel, hends⟩ := h.ends
    have hle : (0 : UInt32) ≤ size := by simp [UInt32.le_iff_toNat_le]
    exact framed_of_ends fuel 0 hle hends (h.within fuel)
  · intro h
    refine ⟨h.ends 0 rfl, fun fuel => Framed.within fuel 0 h, ?_⟩
    intro records hsaved hheld hlen
    obtain ⟨actions, hload⟩ := loadRecords_saved records 0 hsaved hheld (by simpa using hlen)
    exact ⟨_, actions, hload⟩

/-- Four zero bytes are never loaded: no action has the number 0. -/
theorem not_loadsTotally : ¬ ∀ (buf : Mem) (size : UInt32), LoadsTotally buf size := by
  intro h
  obtain ⟨fuel, hends⟩ := (h (fun _ => 0) 4).ends
  rw [loadRecords_of_unknown (by decide) (by decide)] at hends
  cases hends

end Apus
