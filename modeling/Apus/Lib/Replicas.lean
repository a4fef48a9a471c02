import Apus.Lib.TermLogs

namespace Apus.Lib

/-!
# Replicas that elect leaders

Replicas with a log each, a leader in some of the terms, and votes.  The leader of a term adds records
to its log, and has the others copy it: it cuts off what it does not have, and then writes the rest.  A
record is committed when the leader knows that enough replicas have taken it in its term.

The operations are those of one replica or of a leader on one replica.

* `Move` — the operations with their guards;
* `Sound.run` — what holds of the replicas that a run reaches;
* `Sound.holds` — a leader has the records committed in its term or before;
* `Sound.known` — a replica does not lose a record that it knows to be committed.
-/

/-- A candidate, with its log. -/
structure Candidacy (ι α τ : Type) where
  candidate : ι
  term : τ
  log : List α

/-- A vote, with the log of the voter. -/
structure Vote (ι α τ : Type) where
  voter : ι
  candidate : ι
  term : τ
  log : List α

structure Replicas (ι α τ : Type) where
  hist : ι → List α
  term : ι → τ
  leads : ι → Bool
  joined : ι → Bool
  candidacies : List (Candidacy ι α τ)
  votes : List (Vote ι α τ)
  /-- The log of a replica after the leader of the term has written to it, and that of the leader. -/
  taken : ι → τ → List α
  /-- The records committed, each with the term of the leader and its place. -/
  committed : List (τ × Nat × α)
  /-- Those that a replica knows to be committed. -/
  known : ι → List (Nat × α)
  /-- The terms that have had a leader. -/
  elected : τ → Prop
  /-- The log of the leader of a term, and what it was when the term began. -/
  led : τ → List α
  base : τ → List α

section Replicas

set_option linter.unusedSectionVars false

variable {ι α τ ν : Type} [LinearOrder τ] [LinearOrder ν] {term : α → τ} {idx : α → ν}
  {quorum : (ι → Prop) → Prop} {a a' : Replicas ι α τ} {i p q : ι} {T U : τ} {e : α}
  {es : List (Nat × α)} {n : Nat}

/-! ### The invariant -/

namespace Replicas

/-- The candidate has the log it had, unless its term has a leader. -/
def CandidacyOk (a : Replicas ι α τ) (c : Candidacy ι α τ) : Prop :=
  a.joined c.candidate = true ∧ c.term ≤ a.term c.candidate ∧
    (c.term = a.term c.candidate → a.hist c.candidate = c.log ∨ a.elected c.term)

/-- The candidate was not behind the voter, which had what it had taken. -/
def VoteOk (term : α → τ) (idx : α → ν) (a : Replicas ι α τ) (b : Vote ι α τ) : Prop :=
  b.term ≤ a.term b.voter ∧ FromLeaders term a.led b.log ∧
    (∃ c ∈ a.candidacies, c.candidate = b.candidate ∧ c.term = b.term ∧
      LastLe term idx b.log c.log) ∧
    ∀ T p, p <+: a.taken b.voter T → (∃ x ∈ p, term x = T) → T < b.term →
      Keeps a.elected a.base T b.term p b.log

/-- The replica has what it has taken, up to a record of the leader's term or further, unless a later
    leader did not have that. -/
def TakenOk (term : α → τ) (a : Replicas ι α τ) (i : ι) (T : τ) : Prop :=
  T ≤ a.term i ∧ a.elected T ∧ (∃ x ∈ a.taken i T, term x = T) ∧
    ∀ p, p <+: a.taken i T → (∃ x ∈ p, term x = T) →
      p <+: a.hist i ∨ ∃ W, T < W ∧ W ≤ a.term i ∧ a.elected W ∧ ¬ p <+: a.base W

/-- The votes for the leader of a term. -/
def VotedOk (term : α → τ) (idx : α → ν) (quorum : (ι → Prop) → Prop) (a : Replicas ι α τ)
    (U : τ) : Prop :=
  ∃ V, quorum V ∧ ∀ k, V k → U ≤ a.term k ∧
    ∀ T p, p <+: a.taken k T → (∃ x ∈ p, term x = T) → T < U →
      Supports term idx a.led a.elected a.base T U p

def CommittedOk (quorum : (ι → Prop) → Prop) (a : Replicas ι α τ) (c : τ × Nat × α) : Prop :=
  a.elected c.1 ∧ (a.led c.1)[c.2.1]? = some c.2.2 ∧ ∃ Q, quorum Q ∧ ∀ k, Q k → c.2.2 ∈ a.taken k c.1

end Replicas

open Replicas

/-- The invariant. -/
structure Sound (term : α → τ) (idx : α → ν) (quorum : (ι → Prop) → Prop) (a : Replicas ι α τ) :
    Prop where
  logs : LeaderLogs term idx a.led
  source : ∀ i, FromLeaders term a.led (a.hist i)
  term_le : ∀ i, ∀ e ∈ a.hist i, term e ≤ a.term i
  leader : ∀ p, a.leads p = true → a.joined p = true ∧ a.elected (a.term p) ∧
    a.led (a.term p) = a.hist p
  one : ∀ p q, a.leads p = true → a.leads q = true → a.term p = a.term q → p = q
  unled : ∀ T, ¬ a.elected T → a.led T = []
  elect : ∀ T, a.elected T → a.base T <+: a.led T ∧ (∀ x ∈ a.base T, term x < T) ∧
    ∀ x ∈ (a.led T).drop (a.base T).length, term x = T
  created : ∀ T, ∀ e ∈ a.led T, a.elected (term e)
  candidacy : ∀ c ∈ a.candidacies, a.CandidacyOk c
  vote : ∀ b ∈ a.votes, a.VoteOk term idx b
  taken : ∀ i T e, e ∈ a.taken i T → a.TakenOk term i T
  prefix_led : ∀ i T, a.taken i T <+: a.led T
  voted : ∀ U, a.elected U → a.VotedOk term idx quorum U
  committed : ∀ c ∈ a.committed, a.CommittedOk quorum c
  known : ∀ i, ∀ c ∈ a.known i, (∃ T, T ≤ a.term i ∧ (T, c) ∈ a.committed) ∧
    (a.hist i)[c.1]? = some c.2
  joining : ∀ i, a.joined i = false → a.known i = [] ∧ ∀ T, a.taken i T = []

/-- What never changes, or only grows. -/
structure Evolves (a a' : Replicas ι α τ) : Prop where
  led : ∀ T, a.led T <+: a'.led T
  elected : ∀ T, a.elected T → a'.elected T
  base : ∀ T, a.elected T → a'.base T = a.base T
  term : ∀ i, a.term i ≤ a'.term i
  taken : ∀ i T, T < a.term i → a'.taken i T = a.taken i T
  keeps : ∀ i T, a.taken i T <+: a'.taken i T
  candidacies : ∀ c ∈ a.candidacies, c ∈ a'.candidacies
  votes : ∀ b ∈ a.votes, b ∈ a'.votes
  commits : ∀ c ∈ a.committed, c ∈ a'.committed
  knows : ∀ i, ∀ c ∈ a.known i, c ∈ a'.known i

namespace Evolves

theorem refl (a : Replicas ι α τ) : Evolves a a :=
  ⟨fun _ => List.prefix_refl _, fun _ => id, fun _ _ => rfl, fun _ => le_refl _, fun _ _ _ => rfl,
    fun _ _ => List.prefix_refl _, fun _ => id, fun _ => id, fun _ => id, fun _ _ => id⟩

theorem keeps_log {r h : List α} (hg : Evolves a a') (hk : Keeps a.elected a.base T U r h) :
    Keeps a'.elected a'.base T U r h := by
  refine hk.imp id fun ⟨W, hTW, hWU, hW, hnot⟩ => ⟨W, hTW, hWU, hg.elected W hW, ?_⟩
  rwa [hg.base W hW]

theorem supports {r : List α} (hg : Evolves a a') (hU : a.elected U)
    (hs : Supports term idx a.led a.elected a.base T U r) :
    Supports term idx a'.led a'.elected a'.base T U r := by
  rw [Supports, hg.base U hU]
  refine hs.imp id fun ⟨h, hf, hbehind, hk⟩ => ⟨h, hf.grow hg.led, hbehind, hg.keeps_log hk⟩

theorem vote {b : Vote ι α τ} (hg : Evolves a a') (hb : a.VoteOk term idx b) :
    a'.VoteOk term idx b := by
  obtain ⟨hterm, hf, ⟨c, hc, hcand⟩, hk⟩ := hb
  refine ⟨hterm.trans (hg.term _), hf.grow hg.led, ⟨c, hg.candidacies c hc, hcand⟩, ?_⟩
  intro T r hr hown hT
  rw [hg.taken _ _ (lt_of_lt_of_le hT hterm)] at hr
  exact hg.keeps_log (hk T r hr hown hT)

theorem voted (hg : Evolves a a') (hU : a.elected U) (hv : a.VotedOk term idx quorum U) :
    a'.VotedOk term idx quorum U := by
  obtain ⟨V, hV, hall⟩ := hv
  refine ⟨V, hV, fun k hk => ?_⟩
  obtain ⟨hterm, hs⟩ := hall k hk
  refine ⟨hterm.trans (hg.term k), fun T r hr hown hT => ?_⟩
  rw [hg.taken _ _ (lt_of_lt_of_le hT hterm)] at hr
  exact hg.supports hU (hs T r hr hown hT)

theorem committed {c : τ × Nat × α} (hg : Evolves a a') (hc : a.CommittedOk quorum c) :
    a'.CommittedOk quorum c := by
  obtain ⟨hT, hget, Q, hQ, hall⟩ := hc
  exact ⟨hg.elected _ hT, prefix_getElem? (hg.led _) hget, Q, hQ,
    fun k hk => (hg.keeps _ _).mem (hall k hk)⟩

end Evolves

namespace Sound

/-- A record of a log was added in a term that had a leader. -/
theorem elected_of_mem (h : Sound term idx quorum a) (he : e ∈ a.hist i) : a.elected (term e) :=
  h.created _ e ((h.source i).mem he)

/-- What a replica has taken from a leader goes up to a record of its term, or further. -/
theorem length_base_lt (h : Sound term idx quorum a) (he : e ∈ a.taken i T) :
    (a.base T).length < (a.taken i T).length := by
  obtain ⟨-, hT, ⟨x, hx, rfl⟩, -⟩ := h.taken i T e he
  obtain ⟨hbase, hless, -⟩ := h.elect _ hT
  by_contra hcon
  have hpre := List.prefix_of_prefix_length_le (h.prefix_led i _) hbase (by omega)
  exact absurd (hless x (hpre.mem hx)) (lt_irrefl _)

/-- The replicas that have taken a record have taken the records of the leader up to it, and at least one
    of its term. -/
theorem taken_prefix (h : Sound term idx quorum a) (hget : (a.led T)[n]? = some e)
    (he : e ∈ a.taken i T) : (a.led T).take (max n (a.base T).length + 1) <+: a.taken i T := by
  have hbase := h.length_base_lt he
  obtain ⟨k, hk⟩ := List.mem_iff_getElem?.mp he
  obtain ⟨hlt, -⟩ := List.getElem?_eq_some_iff.mp hk
  have hplace := prefix_getElem? (h.prefix_led i T) hk
  obtain rfl := h.logs.index_eq (h.logs.source T) (h.logs.source T) hget hplace rfl rfl
  refine List.prefix_of_prefix_length_le (List.take_prefix _ _) (h.prefix_led i T) ?_
  rw [List.length_take]
  omega

/-- A log that is longer than that at the start of the term has a record of the term. -/
theorem own_mem_take (h : Sound term idx quorum a) (hT : a.elected T)
    (hlt : (a.base T).length < (a.led T).length) (hn : (a.base T).length ≤ n) :
    ∃ x ∈ (a.led T).take (n + 1), term x = T := by
  obtain ⟨-, -, hown⟩ := h.elect T hT
  have hget : (a.led T)[(a.base T).length]? = some (a.led T)[(a.base T).length] :=
    List.getElem?_eq_getElem hlt
  refine ⟨(a.led T)[(a.base T).length], ?_, hown _ ?_⟩
  · refine List.mem_of_getElem? (i := (a.base T).length) ?_
    rw [List.getElem?_take_of_lt (by omega)]
    exact hget
  · refine List.mem_of_getElem? (i := 0) ?_
    rw [List.getElem?_drop]
    exact hget

/-- **A leader has the records committed before its term.** -/
theorem mem_base [WellFoundedLT τ] (h : Sound term idx quorum a)
    (hmeet : ∀ V Q, quorum V → quorum Q → ∃ k, V k ∧ Q k) {c : τ × Nat × α} (hc : c ∈ a.committed)
    (hU : a.elected U) (hlt : c.1 < U) : c.2.2 ∈ a.base U := by
  obtain ⟨hT, hget, Q, hQ, hacked⟩ := h.committed c hc
  obtain ⟨k, hk, -⟩ := hmeet Q Q hQ hQ
  have hlong : (a.base c.1).length < (a.led c.1).length :=
    lt_of_lt_of_le (h.length_base_lt (hacked k hk)) (h.prefix_led k c.1).length_le
  have hown := h.own_mem_take hT hlong (le_max_right c.2.1 (a.base c.1).length)
  have hpre : (a.led c.1).take (max c.2.1 (a.base c.1).length + 1) <+: a.base U := by
    refine h.logs.complete (fun U hU => (h.elect U hU).1) ?_ (List.take_prefix _ _) hown ?_ U hU hlt
    · intro U hU x hx
      obtain ⟨hpre, hless, -⟩ := h.elect U hU
      exact ⟨hless x hx, h.created U x (hpre.mem hx)⟩
    · intro U hU hTU
      obtain ⟨V, hV, hvotes⟩ := h.voted U hU
      obtain ⟨k, hkV, hkQ⟩ := hmeet V Q hV hQ
      exact (hvotes k hkV).2 c.1 _ (h.taken_prefix hget (hacked k hkQ)) hown hTU
  refine hpre.mem (List.mem_of_getElem? (i := c.2.1) ?_)
  rw [List.getElem?_take_of_lt (by omega)]
  exact hget

/-- A leader has the records committed in its term or before, at their places. -/
theorem holds [WellFoundedLT τ] (h : Sound term idx quorum a)
    (hmeet : ∀ V Q, quorum V → quorum Q → ∃ k, V k ∧ Q k) {c : τ × Nat × α} (hc : c ∈ a.committed)
    (hlead : a.leads p = true) (hle : c.1 ≤ a.term p) : (a.hist p)[c.2.1]? = some c.2.2 := by
  obtain ⟨-, hget, -⟩ := h.committed c hc
  obtain ⟨-, hU, hled⟩ := h.leader p hlead
  rcases lt_or_eq_of_le hle with hlt | heq
  · have hmem : c.2.2 ∈ a.hist p := hled ▸ (h.elect _ hU).1.mem (h.mem_base hmeet hc hU hlt)
    obtain ⟨k, hk⟩ := List.mem_iff_getElem?.mp hmem
    obtain ⟨rfl, -⟩ := h.logs.take_eq (h.logs.source c.1) (h.source p) hget hk
    exact hk
  · rw [← hled, ← heq]
    exact hget

/-- Committed records are at their places in the log of a leader whose term is not before theirs. -/
theorem committed_led [WellFoundedLT τ] (h : Sound term idx quorum a)
    (hmeet : ∀ V Q, quorum V → quorum Q → ∃ k, V k ∧ Q k) {c : τ × Nat × α} (hc : c ∈ a.committed)
    (hU : a.elected U) (hle : c.1 ≤ U) : (a.led U)[c.2.1]? = some c.2.2 := by
  obtain ⟨-, hget, -⟩ := h.committed c hc
  rcases lt_or_eq_of_le hle with hlt | rfl
  · have hmem := (h.elect _ hU).1.mem (h.mem_base hmeet hc hU hlt)
    obtain ⟨k, hk⟩ := List.mem_iff_getElem?.mp hmem
    obtain ⟨rfl, -⟩ := h.logs.take_eq (h.logs.source c.1) (h.logs.source U) hget hk
    exact hk
  · exact hget

/-- A replica has what another one knows to be committed, if its own knowledge goes as far. -/
theorem known_of_le [WellFoundedLT τ] (h : Sound term idx quorum a)
    (hmeet : ∀ V Q, quorum V → quorum Q → ∃ k, V k ∧ Q k) {j : ι} {c c' : Nat × α} (hc : c ∈ a.known i)
    (hc' : c' ∈ a.known j) (hle : idx c.2 ≤ idx c'.2) : (a.hist j)[c.1]? = some c.2 := by
  obtain ⟨⟨T, -, hT⟩, -⟩ := h.known i c hc
  obtain ⟨⟨T', -, hT'⟩, hget'⟩ := h.known j c' hc'
  -- the log of the later leader has both records
  obtain ⟨U, hU, hlt, hlt'⟩ : ∃ U, a.elected U ∧ T ≤ U ∧ T' ≤ U := by
    rcases le_total T T' with hle | hle
    · exact ⟨T', (h.committed _ hT').1, hle, le_refl _⟩
    · exact ⟨T, (h.committed _ hT).1, le_refl _, hle⟩
  have hled := h.committed_led hmeet hT hU hlt
  have hled' := h.committed_led hmeet hT' hU hlt'
  have hinc := List.pairwise_iff_getElem.mp (h.logs.increasing U)
  have hplace : c.1 ≤ c'.1 := by
    by_contra hcon
    obtain ⟨hk, hget⟩ := List.getElem?_eq_some_iff.mp hled
    obtain ⟨hk', hget''⟩ := List.getElem?_eq_some_iff.mp hled'
    have hless := hinc _ _ hk' hk (Nat.lt_of_not_le hcon)
    rw [hget, hget''] at hless
    exact absurd hle (not_le.mpr hless)
  obtain ⟨-, htake⟩ := h.logs.take_eq (h.logs.source U) (h.source j) hled' hget'
  rw [← List.getElem?_take_of_lt (Nat.lt_succ_of_le hplace), ← htake,
    List.getElem?_take_of_lt (Nat.lt_succ_of_le hplace)]
  exact hled

/-- There is one committed record with an index. -/
theorem known_unique [WellFoundedLT τ] (h : Sound term idx quorum a)
    (hmeet : ∀ V Q, quorum V → quorum Q → ∃ k, V k ∧ Q k) {j : ι} {c c' : Nat × α} (hc : c ∈ a.known i)
    (hc' : c' ∈ a.known j) (hidx : idx c.2 = idx c'.2) : c = c' := by
  have hget := h.known_of_le hmeet hc hc' hidx.le
  have hget' := (h.known j c' hc').2
  have hinc := List.pairwise_iff_getElem.mp (h.logs.increasing_of (h.source j))
  obtain ⟨hk, heq⟩ := List.getElem?_eq_some_iff.mp hget
  obtain ⟨hk', heq'⟩ := List.getElem?_eq_some_iff.mp hget'
  have hplace : c.1 = c'.1 := by
    rcases Nat.lt_trichotomy c.1 c'.1 with hlt | heq | hlt
    · have hless := hinc _ _ hk hk' hlt
      rw [heq, heq', hidx] at hless
      exact absurd hless (lt_irrefl _)
    · exact heq
    · have hless := hinc _ _ hk' hk hlt
      rw [heq, heq', hidx] at hless
      exact absurd hless (lt_irrefl _)
  rw [hplace, hget', Option.some.injEq] at hget
  exact Prod.ext hplace hget.symm

/-- Leaders are in different terms. -/
theorem term_ne (h : Sound term idx quorum a) (hi : a.leads i = true) (hp : a.leads p = true)
    (hpi : p ≠ i) : a.term p ≠ a.term i := fun hcon => hpi (h.one p i hp hi hcon)

end Sound

/-! ### The operations -/

variable [DecidableEq ι]

/-- New replicas, in the first term. -/
def Replicas.new (T : τ) : Replicas ι α τ where
  hist _ := []
  term _ := T
  leads _ := false
  joined _ := false
  candidacies := []
  votes := []
  taken _ _ := []
  committed := []
  known _ := []
  elected _ := False
  led _ := []
  base _ := []

/-- The leader `i` adds a record. -/
def Replicas.append (a : Replicas ι α τ) (i : ι) (e : α) : Replicas ι α τ :=
  { a with
    hist := Function.update a.hist i (a.hist i ++ [e])
    led := Function.update a.led (a.term i) (a.hist i ++ [e]) }

/-- The leader `q` writes its log to `i`. -/
def Replicas.copy (a : Replicas ι α τ) (q i : ι) : Replicas ι α τ :=
  { a with
    hist := Function.update a.hist i (a.hist q)
    taken := Function.update a.taken i (Function.update (a.taken i) (a.term q) (a.hist q)) }

/-- A leader cuts the log of `i` off. -/
def Replicas.truncate (a : Replicas ι α τ) (i : ι) (n : Nat) : Replicas ι α τ :=
  { a with hist := Function.update a.hist i ((a.hist i).take n) }

/-- The leader `i` commits records. -/
def Replicas.commit (a : Replicas ι α τ) (i : ι) (es : List (Nat × α)) : Replicas ι α τ :=
  { a with
    taken := Function.update a.taken i (Function.update (a.taken i) (a.term i) (a.hist i))
    committed := es.map (fun c => (a.term i, c)) ++ a.committed }

/-- A replica is told that records are committed. -/
def Replicas.learn (a : Replicas ι α τ) (i : ι) (es : List (Nat × α)) : Replicas ι α τ :=
  { a with known := Function.update a.known i (es ++ a.known i) }

/-- A replica gets its first log. -/
def Replicas.join (a : Replicas ι α τ) (i : ι) (h : List α) : Replicas ι α τ :=
  { a with hist := Function.update a.hist i h, joined := Function.update a.joined i true }

/-- A replica is in another term, and not its leader. -/
def Replicas.follow (a : Replicas ι α τ) (i : ι) (T : τ) : Replicas ι α τ :=
  { a with term := Function.update a.term i T, leads := Function.update a.leads i false }

/-- A replica becomes a candidate. -/
def Replicas.stand (a : Replicas ι α τ) (i : ι) (T : τ) : Replicas ι α τ :=
  { a.follow i T with candidacies := ⟨i, T, a.hist i⟩ :: a.candidacies }

/-- A replica votes for a candidate. -/
def Replicas.grant (a : Replicas ι α τ) (i : ι) (c : Candidacy ι α τ) : Replicas ι α τ :=
  { a.follow i c.term with votes := ⟨i, c.candidate, c.term, a.hist i⟩ :: a.votes }

/-- A candidate becomes leader. -/
def Replicas.lead (a : Replicas ι α τ) (i : ι) : Replicas ι α τ :=
  { a with
    leads := Function.update a.leads i true
    elected := fun T => a.elected T ∨ T = a.term i
    led := Function.update a.led (a.term i) (a.hist i)
    base := Function.update a.base (a.term i) (a.hist i) }

/-! What the operations change. -/

theorem Replicas.hist_append : (a.append i e).hist = Function.update a.hist i (a.hist i ++ [e]) := rfl

theorem Replicas.led_append :
    (a.append i e).led = Function.update a.led (a.term i) (a.hist i ++ [e]) := rfl

theorem Replicas.hist_copy : (a.copy q i).hist = Function.update a.hist i (a.hist q) := rfl

theorem Replicas.taken_copy : (a.copy q i).taken =
    Function.update a.taken i (Function.update (a.taken i) (a.term q) (a.hist q)) := rfl

theorem Replicas.hist_truncate :
    (a.truncate i n).hist = Function.update a.hist i ((a.hist i).take n) := rfl

theorem Replicas.taken_commit : (a.commit i es).taken =
    Function.update a.taken i (Function.update (a.taken i) (a.term i) (a.hist i)) := rfl

theorem Replicas.known_learn :
    (a.learn i es).known = Function.update a.known i (es ++ a.known i) := rfl

theorem Replicas.hist_join : (a.join i h).hist = Function.update a.hist i h := rfl

theorem Replicas.joined_join : (a.join i h).joined = Function.update a.joined i true := rfl

theorem Replicas.term_follow : (a.follow i T).term = Function.update a.term i T := rfl

theorem Replicas.leads_follow : (a.follow i T).leads = Function.update a.leads i false := rfl

theorem Replicas.leads_lead : (a.lead i).leads = Function.update a.leads i true := rfl

theorem Replicas.led_lead : (a.lead i).led = Function.update a.led (a.term i) (a.hist i) := rfl

theorem Replicas.base_lead : (a.lead i).base = Function.update a.base (a.term i) (a.hist i) := rfl

/-! ### The steps -/

/-- The operations, with their guards. -/
inductive Move (term : α → τ) (idx : α → ν) (quorum : (ι → Prop) → Prop) (a : Replicas ι α τ) :
    Replicas ι α τ → Prop
  | append {i : ι} {e : α} : a.leads i = true → term e = a.term i → (∀ x ∈ a.hist i, idx x < idx e) →
      Move term idx quorum a (a.append i e)
  /-- What a replica has taken is copied to it: its log gets longer, and has a record of the term. -/
  | copy {q i : ι} : a.leads q = true → a.leads i = false → a.joined i = true →
      a.term i = a.term q → a.hist i <+: a.hist q → (∃ x ∈ a.hist q, term x = a.term q) →
      Move term idx quorum a (a.copy q i)
  /-- A leader cuts off what it does not have. -/
  | truncate {q i : ι} {n : Nat} : a.leads q = true → a.leads i = false → a.term i = a.term q →
      (∀ x ∈ (a.hist i).drop n, x ∉ a.hist q) → Move term idx quorum a (a.truncate i n)
  /-- A leader with a record of its term commits those that enough replicas have taken in this term. -/
  | commit {i : ι} {es : List (Nat × α)} : a.leads i = true → (∃ x ∈ a.hist i, term x = a.term i) →
      (∀ c ∈ es, (a.hist i)[c.1]? = some c.2 ∧
        ∃ Q, quorum Q ∧ ∀ j, Q j → j = i ∨ c.2 ∈ a.taken j (a.term i)) →
      Move term idx quorum a (a.commit i es)
  /-- A replica learns that some of its records were committed in its term or before. -/
  | learn {i : ι} {es : List (Nat × α)} : a.joined i = true →
      (∀ c ∈ es, (∃ T, T ≤ a.term i ∧ (T, c) ∈ a.committed) ∧ (a.hist i)[c.1]? = some c.2) →
      Move term idx quorum a (a.learn i es)
  /-- A replica gets its first log, with records of terms up to its own. -/
  | join {i : ι} {h : List α} : a.joined i = false → FromLeaders term a.led h →
      (∀ x ∈ h, term x ≤ a.term i) → Move term idx quorum a (a.join i h)
  /-- A replica that is not leader, or stops to be one, goes to a later term. -/
  | follow {i : ι} {T : τ} : a.term i ≤ T → Move term idx quorum a (a.follow i T)
  | stand {i : ι} {T : τ} : a.term i ≤ T → a.joined i = true → Move term idx quorum a (a.stand i T)
  /-- A replica votes for a candidate of a later term that is not behind. -/
  | grant {i : ι} {c : Candidacy ι α τ} : c ∈ a.candidacies → a.term i < c.term →
      LastLe term idx (a.hist i) c.log → Move term idx quorum a (a.grant i c)
  /-- A candidate becomes leader of a term that has none, with enough votes. -/
  | lead {i : ι} {V : ι → Prop} : a.joined i = true → ¬ a.elected (a.term i) → quorum V →
      (∀ k, V k → k = i ∨ ∃ b ∈ a.votes, b.voter = k ∧ b.candidate = i ∧ b.term = a.term i) →
      Move term idx quorum a (a.lead i)

theorem Replicas.term_le_follow (hT : a.term i ≤ T) (j : ι) : a.term j ≤ (a.follow i T).term j := by
  by_cases hj : j = i
  · subst hj
    rwa [term_follow, Function.update_self]
  · rw [term_follow, Function.update_of_ne hj]

namespace Sound

/-- What a replica takes from a leader goes on with what it had taken. -/
theorem taken_update (h : Sound term idx quorum a) (hlead : a.leads q = true) (i j : ι) (T : τ) :
    a.taken j T <+: Function.update a.taken i
      (Function.update (a.taken i) (a.term q) (a.hist q)) j T := by
  by_cases hj : j = i
  · subst hj
    rw [Function.update_self]
    refine prefix_update ?_ T
    rw [← (h.leader q hlead).2.2]
    exact h.prefix_led j _
  · rw [Function.update_of_ne hj]

/-- What a replica takes from a leader is in the log of the leader. -/
theorem taken_update_led (h : Sound term idx quorum a) (hlead : a.leads q = true) (i j : ι) (T : τ) :
    Function.update a.taken i (Function.update (a.taken i) (a.term q) (a.hist q)) j T <+: a.led T := by
  by_cases hj : j = i
  · subst hj
    rw [Function.update_self]
    by_cases hT : T = a.term q
    · subst hT
      rw [Function.update_self, ← (h.leader q hlead).2.2]
    · rw [Function.update_of_ne hT]
      exact h.prefix_led j T
  · rw [Function.update_of_ne hj]
    exact h.prefix_led j T

/-- A candidacy in a term with a leader is over, and the log of the candidate may change. -/
theorem candidacy_write {c : Candidacy ι α τ} (h : Sound term idx quorum a) (hc : c ∈ a.candidacies)
    (hled : a.elected (a.term i)) (hhist : ∀ j, j ≠ i → a'.hist j = a.hist j)
    (hterm : a'.term = a.term) (hjoined : a'.joined = a.joined) (helected : a'.elected = a.elected) :
    a'.CandidacyOk c := by
  obtain ⟨hjoin, hle, hsame⟩ := h.candidacy c hc
  rw [CandidacyOk, hterm, hjoined, helected]
  refine ⟨hjoin, hle, fun heq => ?_⟩
  by_cases hci : c.candidate = i
  · subst hci
    exact .inr (heq ▸ hled)
  · rw [hhist _ hci]
    exact hsame heq

theorem evolves (h : Sound term idx quorum a) (hm : Move term idx quorum a a') : Evolves a a' := by
  have hg := Evolves.refl a
  cases hm with
  | @append i e hlead =>
    refine { hg with led := prefix_update ?_ }
    rw [(h.leader i hlead).2.2]
    exact List.prefix_append _ _
  | @copy q i hlead _ _ hterm =>
    refine { hg with taken := fun j T hT => ?_, keeps := h.taken_update hlead i }
    by_cases hj : j = i
    · subst hj
      rw [taken_copy, Function.update_self, Function.update_of_ne (hterm ▸ hT.ne)]
    · rw [taken_copy, Function.update_of_ne hj]
  | truncate => exact { hg with }
  | @commit i _ hlead =>
    refine { hg with
      taken := fun j T hT => ?_
      keeps := h.taken_update hlead i
      commits := fun _ => List.mem_append_right _ }
    by_cases hj : j = i
    · subst hj
      rw [taken_commit, Function.update_self, Function.update_of_ne hT.ne]
    · rw [taken_commit, Function.update_of_ne hj]
  | @learn i =>
    refine { hg with knows := fun j c hc => ?_ }
    by_cases hj : j = i
    · subst hj
      rw [known_learn, Function.update_self]
      exact List.mem_append_right _ hc
    · rwa [known_learn, Function.update_of_ne hj]
  | join => exact { hg with }
  | follow hT => exact { hg with term := term_le_follow hT }
  | stand hT =>
    exact { hg with term := term_le_follow hT, candidacies := fun _ => List.mem_cons_of_mem _ }
  | grant _ hT =>
    exact { hg with term := term_le_follow hT.le, votes := fun _ => List.mem_cons_of_mem _ }
  | @lead i _ _ hnone =>
    refine { hg with elected := fun _ => .inl, led := prefix_update ?_, base := fun U hU => ?_ }
    · rw [h.unled _ hnone]
      exact List.nil_prefix
    · rw [base_lead, Function.update_of_ne]
      rintro rfl
      exact hnone hU

theorem new (T : τ) : Sound term idx quorum (Replicas.new (ι := ι) T) where
  logs := ⟨fun _ => FromLeaders.nil, fun _ _ he => absurd he List.not_mem_nil, fun _ => List.Pairwise.nil⟩
  source _ := FromLeaders.nil
  term_le _ _ he := absurd he List.not_mem_nil
  leader _ hp := absurd hp Bool.false_ne_true
  one _ _ hp := absurd hp Bool.false_ne_true
  unled _ _ := rfl
  elect _ hT := hT.elim
  created _ _ he := absurd he List.not_mem_nil
  candidacy _ hc := absurd hc List.not_mem_nil
  vote _ hb := absurd hb List.not_mem_nil
  taken _ _ _ he := absurd he List.not_mem_nil
  prefix_led _ _ := List.prefix_refl _
  voted _ hU := hU.elim
  committed _ hc := absurd hc List.not_mem_nil
  known _ _ hc := absurd hc List.not_mem_nil
  joining _ _ := ⟨rfl, fun _ => rfl⟩

theorem append (h : Sound term idx quorum a) (hlead : a.leads i = true) (hterm : term e = a.term i)
    (hidx : ∀ x ∈ a.hist i, idx x < idx e) : Sound term idx quorum (a.append i e) := by
  obtain ⟨hjoined, helected, hled⟩ := h.leader i hlead
  have hpre : a.led (a.term i) <+: a.hist i ++ [e] := hled ▸ List.prefix_append _ _
  have hg := h.evolves (.append hlead hterm hidx)
  have hsource : FromLeaders term (a.append i e).led (a.hist i ++ [e]) := by
    have hnew := h.logs.source_append hterm
    rwa [hled] at hnew
  have hmem : ∀ {j x}, x ∈ (a.append i e).hist j → x ∈ a.hist j ∨ j = i ∧ x = e := by
    intro j x hx
    by_cases hj : j = i
    · subst hj
      rw [hist_append, Function.update_self] at hx
      exact (List.mem_append.mp hx).imp id fun he => ⟨rfl, List.mem_singleton.mp he⟩
    · rw [hist_append, Function.update_of_ne hj] at hx
      exact .inl hx
  have hkept : ∀ j, a.hist j <+: (a.append i e).hist j := prefix_update (List.prefix_append _ _)
  refine ⟨?_, fun j => ?_, fun j x hx => ?_, fun p hp => ?_, h.one, fun T hT => ?_, fun T hT => ?_,
    fun T x hx => ?_, fun c hc => ?_, fun b hb => hg.vote (h.vote b hb), fun j T x hx => ?_,
    fun j T => (h.prefix_led j T).trans (hg.led T), fun U hU => hg.voted hU (h.voted U hU),
    fun c hc => hg.committed (h.committed c hc), fun j c hc => ?_, h.joining⟩
  · -- the log of the leader of this term gets longer
    refine h.logs.update hpre hsource (fun x hx => ?_) ?_
    · rcases List.mem_append.mp hx with hx | hx
      · exact h.term_le i x hx
      · rw [List.mem_singleton.mp hx, hterm]
    · refine List.pairwise_append.mpr ⟨hled ▸ h.logs.increasing _, List.pairwise_singleton _ _, ?_⟩
      intro x hx y hy
      rw [List.mem_singleton.mp hy]
      exact hidx x hx
  · by_cases hj : j = i
    · subst hj
      rw [hist_append, Function.update_self]
      exact hsource
    · rw [hist_append, Function.update_of_ne hj]
      exact (h.source j).grow hg.led
  · rcases hmem hx with hx | ⟨rfl, rfl⟩
    · exact h.term_le j x hx
    · exact hterm.le
  · -- other leaders are in other terms
    obtain ⟨hjoin, hel, hledp⟩ := h.leader p hp
    refine ⟨hjoin, hel, ?_⟩
    by_cases hpi : p = i
    · subst hpi
      rw [led_append, hist_append, Function.update_self]
      exact Function.update_self ..
    · simp only [Replicas.append, Function.update_of_ne hpi,
        Function.update_of_ne (h.term_ne hlead hp hpi)]
      exact hledp
  · have hne : T ≠ a.term i := fun hcon => hT (hcon ▸ helected)
    rw [led_append, Function.update_of_ne hne]
    exact h.unled T hT
  · -- the new record is one of this term
    obtain ⟨hbase, hless, hown⟩ := h.elect T hT
    refine ⟨hbase.trans (hg.led T), hless, fun x hx => ?_⟩
    by_cases hTi : T = a.term i
    · subst hTi
      rw [led_append, Function.update_self, ← hled] at hx
      rw [show (a.append i e).base = a.base from rfl, List.drop_append_of_le_length hbase.length_le] at hx
      rcases List.mem_append.mp hx with hx | hx
      · exact hown x hx
      · rw [List.mem_singleton.mp hx, hterm]
    · rw [led_append, Function.update_of_ne hTi] at hx
      exact hown x hx
  · by_cases hT : T = a.term i
    · subst hT
      rw [led_append, Function.update_self] at hx
      rcases List.mem_append.mp hx with hx | hx
      · exact h.elected_of_mem hx
      · rw [List.mem_singleton.mp hx, hterm]
        exact helected
    · rw [led_append, Function.update_of_ne hT] at hx
      exact h.created T x hx
  · exact h.candidacy_write hc helected (fun j hj => Function.update_of_ne hj ..) rfl rfl rfl
  · obtain ⟨hle, hel, hown, hk⟩ := h.taken j T x hx
    exact ⟨hle, hel, hown, fun r hr hr' => (hk r hr hr').imp (fun hpre => hpre.trans (hkept j)) id⟩
  · obtain ⟨hcom, hget⟩ := h.known j c hc
    exact ⟨hcom, prefix_getElem? (hkept j) hget⟩

/-- What a replica has taken is copied to it: its log gets longer, and has a record of the term. -/
theorem copy (h : Sound term idx quorum a) (hlead : a.leads q = true) (hnot : a.leads i = false)
    (hjoined : a.joined i = true) (hterm : a.term i = a.term q) (hpart : a.hist i <+: a.hist q)
    (hown : ∃ x ∈ a.hist q, term x = a.term q) : Sound term idx quorum (a.copy q i) := by
  obtain ⟨-, helected, -⟩ := h.leader q hlead
  have hg := h.evolves (.copy hlead hnot hjoined hterm hpart hown)
  have hkept : ∀ j, a.hist j <+: (a.copy q i).hist j := prefix_update hpart
  refine ⟨h.logs, fun j => ?_, fun j x hx => ?_, fun p hp => ?_, h.one, h.unled, h.elect, h.created,
    fun c hc => ?_, fun b hb => hg.vote (h.vote b hb), fun j T x hx => ?_, fun j T => ?_,
    fun U hU => hg.voted hU (h.voted U hU), fun c hc => hg.committed (h.committed c hc),
    fun j c hc => ?_, fun j hj => ?_⟩
  · by_cases hj : j = i
    · subst hj
      rw [hist_copy, Function.update_self]
      exact h.source q
    · rw [hist_copy, Function.update_of_ne hj]
      exact h.source j
  · by_cases hj : j = i
    · subst hj
      rw [hist_copy, Function.update_self] at hx
      exact (h.term_le q x hx).trans hterm.ge
    · rw [hist_copy, Function.update_of_ne hj] at hx
      exact h.term_le j x hx
  · have hpi : p ≠ i := by
      rintro rfl
      exact absurd (hnot.symm.trans hp) (by decide)
    rw [hist_copy, Function.update_of_ne hpi]
    exact h.leader p hp
  · exact h.candidacy_write hc (hterm ▸ helected) (fun j hj => Function.update_of_ne hj ..) rfl rfl rfl
  · by_cases hj : j = i
    · subst hj
      by_cases hT : T = a.term q
      · -- it has all that the leader has
        subst hT
        refine ⟨hterm.ge, helected, ?_, fun r hr _ => ?_⟩
        · rw [taken_copy, Function.update_self, Function.update_self]
          exact hown
        · rw [taken_copy, Function.update_self, Function.update_self] at hr
          rw [hist_copy, Function.update_self]
          exact .inl hr
      · rw [taken_copy, Function.update_self, Function.update_of_ne hT] at hx
        rw [TakenOk, taken_copy, Function.update_self, Function.update_of_ne hT]
        obtain ⟨hle, hel, hmem, hk⟩ := h.taken j T x hx
        exact ⟨hle, hel, hmem, fun r hr hr' => (hk r hr hr').imp (fun hpre => hpre.trans (hkept j)) id⟩
    · rw [taken_copy, Function.update_of_ne hj] at hx
      rw [TakenOk, taken_copy, hist_copy, Function.update_of_ne hj, Function.update_of_ne hj]
      exact h.taken j T x hx
  · exact h.taken_update_led hlead i j T
  · obtain ⟨hcom, hget⟩ := h.known j c hc
    exact ⟨hcom, prefix_getElem? (hkept j) hget⟩
  · have hji : j ≠ i := by
      rintro rfl
      exact absurd (hj.symm.trans hjoined) (by decide)
    rw [taken_copy, Function.update_of_ne hji]
    exact h.joining j hj

/-- A leader cuts off what it does not have; all committed records stay. -/
theorem truncate [WellFoundedLT τ] (h : Sound term idx quorum a)
    (hmeet : ∀ V Q, quorum V → quorum Q → ∃ k, V k ∧ Q k) (hlead : a.leads q = true)
    (hnot : a.leads i = false) (hterm : a.term i = a.term q)
    (hcut : ∀ x ∈ (a.hist i).drop n, x ∉ a.hist q) : Sound term idx quorum (a.truncate i n) := by
  obtain ⟨-, helected, hled⟩ := h.leader q hlead
  have hg := h.evolves (.truncate hlead hnot hterm hcut)
  have hmem : ∀ {j x}, x ∈ (a.truncate i n).hist j → x ∈ a.hist j := by
    intro j x hx
    by_cases hj : j = i
    · subst hj
      rw [hist_truncate, Function.update_self] at hx
      exact List.mem_of_mem_take hx
    · rwa [hist_truncate, Function.update_of_ne hj] at hx
  refine ⟨h.logs, fun j => ?_, fun j x hx => h.term_le j x (hmem hx), fun p hp => ?_, h.one, h.unled,
    h.elect, h.created, fun c hc => ?_, fun b hb => hg.vote (h.vote b hb), fun j T x hx => ?_,
    h.prefix_led, fun U hU => hg.voted hU (h.voted U hU), fun c hc => hg.committed (h.committed c hc),
    fun j c hc => ?_, h.joining⟩
  · by_cases hj : j = i
    · subst hj
      rw [hist_truncate, Function.update_self]
      exact (h.source j).take n
    · rw [hist_truncate, Function.update_of_ne hj]
      exact h.source j
  · have hpi : p ≠ i := by
      rintro rfl
      exact absurd (hnot.symm.trans hp) (by decide)
    rw [hist_truncate, Function.update_of_ne hpi]
    exact h.leader p hp
  · exact h.candidacy_write hc (hterm ▸ helected) (fun j hj => Function.update_of_ne hj ..) rfl rfl rfl
  · obtain ⟨hle, hel, hmem, hk⟩ := h.taken j T x hx
    refine ⟨hle, hel, hmem, fun r hr hr' => ?_⟩
    by_cases hj : j = i
    · subst hj
      rw [hist_truncate, Function.update_self]
      refine (hk r hr hr').elim (fun hpre => ?_) .inr
      rcases Nat.lt_or_ge n r.length with hn | hn
      · -- the leader is one of a later term, that began without the record cut off
        right
        have hnot : ¬ r <+: a.hist q := by
          intro hcon
          have hget : r[n]? = some r[n] := List.getElem?_eq_getElem hn
          have hdrop : r[n] ∈ (a.hist j).drop n := by
            refine List.mem_of_getElem? (i := 0) ?_
            rw [List.getElem?_drop]
            exact prefix_getElem? hpre hget
          exact hcut _ hdrop (hcon.mem (List.mem_of_getElem? hget))
        refine ⟨a.term q, lt_of_le_of_ne (hterm ▸ hle) fun hcon => hnot ?_, hterm.ge, helected,
          fun hcon => hnot (hled ▸ hcon.trans (h.elect _ helected).1)⟩
        rw [← hled, ← hcon]
        exact hr.trans (h.prefix_led j T)
      · -- what the replica has taken is not cut
        left
        exact List.prefix_of_prefix_length_le hpre (List.take_prefix n _) (by
          rw [List.length_take]
          exact le_min hn hpre.length_le)
    · rw [hist_truncate, Function.update_of_ne hj]
      exact hk r hr hr'
  · obtain ⟨hcom, hget⟩ := h.known j c hc
    refine ⟨hcom, ?_⟩
    by_cases hj : j = i
    · subst hj
      rw [hist_truncate, Function.update_self]
      obtain ⟨T, hT, hmemc⟩ := hcom
      -- the leader has the committed record, and does not cut it off
      have hq := h.holds hmeet hmemc hlead (hterm ▸ hT)
      rcases Nat.lt_or_ge c.1 n with hlt | hge
      · rwa [List.getElem?_take_of_lt hlt]
      · have hdrop : c.2 ∈ (a.hist j).drop n := by
          refine List.mem_of_getElem? (i := c.1 - n) ?_
          rw [List.getElem?_drop, Nat.add_sub_cancel' hge]
          exact hget
        exact absurd (List.mem_of_getElem? hq) (hcut c.2 hdrop)
    · rw [hist_truncate, Function.update_of_ne hj]
      exact hget

/-- A leader with a record of its term commits those that enough replicas have taken in this term. -/
theorem commit (h : Sound term idx quorum a) (hlead : a.leads i = true)
    (hown : ∃ x ∈ a.hist i, term x = a.term i) (hes : ∀ c ∈ es, (a.hist i)[c.1]? = some c.2 ∧
      ∃ Q, quorum Q ∧ ∀ j, Q j → j = i ∨ c.2 ∈ a.taken j (a.term i)) :
    Sound term idx quorum (a.commit i es) := by
  obtain ⟨hjoined, helected, hled⟩ := h.leader i hlead
  have hg := h.evolves (.commit hlead hown hes)
  refine ⟨h.logs, h.source, h.term_le, h.leader, h.one, h.unled, h.elect, h.created, h.candidacy,
    fun b hb => hg.vote (h.vote b hb), fun j T x hx => ?_, fun j T => ?_,
    fun U hU => hg.voted hU (h.voted U hU), fun c hc => ?_, fun j c hc => ?_, fun j hj => ?_⟩
  · by_cases hj : j = i
    · subst hj
      by_cases hT : T = a.term j
      · subst hT
        rw [TakenOk, taken_commit, Function.update_self, Function.update_self]
        exact ⟨le_refl _, helected, hown, fun r hr _ => .inl hr⟩
      · rw [taken_commit, Function.update_self, Function.update_of_ne hT] at hx
        rw [TakenOk, taken_commit, Function.update_self, Function.update_of_ne hT]
        exact h.taken j T x hx
    · rw [taken_commit, Function.update_of_ne hj] at hx
      rw [TakenOk, taken_commit, Function.update_of_ne hj]
      exact h.taken j T x hx
  · exact h.taken_update_led hlead i j T
  · rcases List.mem_append.mp hc with hc | hc
    · obtain ⟨r, hr, rfl⟩ := List.mem_map.mp hc
      obtain ⟨he, Q, hQ, hacked⟩ := hes r hr
      refine ⟨helected, by rw [← hled] at he; exact he, Q, hQ, fun j hj => ?_⟩
      rcases hacked j hj with rfl | hin
      · rw [taken_commit, Function.update_self, Function.update_self]
        exact List.mem_of_getElem? he
      · exact (hg.keeps j _).mem hin
    · exact hg.committed (h.committed c hc)
  · obtain ⟨⟨T, hT, hin⟩, hget⟩ := h.known j c hc
    exact ⟨⟨T, hT, List.mem_append_right _ hin⟩, hget⟩
  · have hji : j ≠ i := by
      rintro rfl
      exact absurd (hj.symm.trans hjoined) (by decide)
    rw [taken_commit, Function.update_of_ne hji]
    exact h.joining j hj

/-- A replica learns that some of its records were committed in its term or before. -/
theorem learn (h : Sound term idx quorum a) (hjoined : a.joined i = true)
    (hes : ∀ c ∈ es, (∃ T, T ≤ a.term i ∧ (T, c) ∈ a.committed) ∧ (a.hist i)[c.1]? = some c.2) :
    Sound term idx quorum (a.learn i es) := by
  have hg := h.evolves (.learn hjoined hes)
  refine ⟨h.logs, h.source, h.term_le, h.leader, h.one, h.unled, h.elect, h.created, h.candidacy,
    fun b hb => hg.vote (h.vote b hb), h.taken, h.prefix_led, fun U hU => hg.voted hU (h.voted U hU),
    fun c hc => hg.committed (h.committed c hc), fun j c hc => ?_, fun j hj => ?_⟩
  · by_cases hj : j = i
    · subst hj
      rw [known_learn, Function.update_self] at hc
      rcases List.mem_append.mp hc with hc | hc
      · exact hes c hc
      · exact h.known j c hc
    · rw [known_learn, Function.update_of_ne hj] at hc
      exact h.known j c hc
  · have hji : j ≠ i := by
      rintro rfl
      exact absurd (hj.symm.trans hjoined) (by decide)
    rw [known_learn, Function.update_of_ne hji]
    exact h.joining j hj

/-- A replica gets its first log, with records of terms up to its own. -/
theorem join {h' : List α} (h : Sound term idx quorum a) (hnew : a.joined i = false)
    (hf : FromLeaders term a.led h') (hterm : ∀ x ∈ h', term x ≤ a.term i) :
    Sound term idx quorum (a.join i h') := by
  have hg := h.evolves (.join hnew hf hterm)
  have hne : ∀ {j}, a.joined j = true → j ≠ i := by
    rintro j hj rfl
    exact absurd (hnew.symm.trans hj) (by decide)
  have hjoined : ∀ {j}, a.joined j = true → (a.join i h').joined j = true := by
    intro j hj
    rwa [joined_join, Function.update_of_ne (hne hj)]
  refine ⟨h.logs, fun j => ?_, fun j x hx => ?_, fun p hp => ?_, h.one, h.unled, h.elect, h.created,
    fun c hc => ?_, fun b hb => hg.vote (h.vote b hb), fun j T x hx => ?_, h.prefix_led,
    fun U hU => hg.voted hU (h.voted U hU), fun c hc => hg.committed (h.committed c hc),
    fun j c hc => ?_, fun j hj => ?_⟩
  · by_cases hj : j = i
    · subst hj
      rwa [hist_join, Function.update_self]
    · rw [hist_join, Function.update_of_ne hj]
      exact h.source j
  · by_cases hj : j = i
    · subst hj
      rw [hist_join, Function.update_self] at hx
      exact hterm x hx
    · rw [hist_join, Function.update_of_ne hj] at hx
      exact h.term_le j x hx
  · obtain ⟨hjoin, hel, hled⟩ := h.leader p hp
    refine ⟨hjoined hjoin, hel, ?_⟩
    rw [hist_join, Function.update_of_ne (hne hjoin)]
    exact hled
  · obtain ⟨hjoin, hle, hsame⟩ := h.candidacy c hc
    refine ⟨hjoined hjoin, hle, fun heq => ?_⟩
    rw [hist_join, Function.update_of_ne (hne hjoin)]
    exact hsame heq
  · -- it has taken nothing before it joins, and knows nothing
    have hji : j ≠ i := by
      rintro rfl
      rw [show (a.join j h').taken j T = [] from (h.joining j hnew).2 T] at hx
      cases hx
    rw [TakenOk, hist_join, Function.update_of_ne hji]
    exact h.taken j T x hx
  · have hji : j ≠ i := by
      rintro rfl
      rw [show (a.join j h').known j = [] from (h.joining j hnew).1] at hc
      cases hc
    rw [hist_join, Function.update_of_ne hji]
    exact h.known j c hc
  · have hji : j ≠ i := by
      rintro rfl
      rw [joined_join, Function.update_self] at hj
      cases hj
    rw [joined_join, Function.update_of_ne hji] at hj
    exact h.joining j hj

/-- A replica that is not leader, or stops to be one, goes to a later term. -/
theorem follow (h : Sound term idx quorum a) (hT : a.term i ≤ T) :
    Sound term idx quorum (a.follow i T) := by
  have hg := h.evolves (.follow hT)
  have hother : ∀ {p}, (a.follow i T).leads p = true →
      p ≠ i ∧ a.leads p = true ∧ (a.follow i T).term p = a.term p := by
    intro p hp
    have hpi : p ≠ i := by
      rintro rfl
      rw [leads_follow, Function.update_self] at hp
      cases hp
    rw [leads_follow, Function.update_of_ne hpi] at hp
    rw [term_follow, Function.update_of_ne hpi]
    exact ⟨hpi, hp, rfl⟩
  refine ⟨h.logs, h.source, fun j x hx => (h.term_le j x hx).trans (hg.term j), fun p hp => ?_,
    fun p q hp hq heq => ?_, h.unled, h.elect, h.created, fun c hc => ?_,
    fun b hb => hg.vote (h.vote b hb), fun j U x hx => ?_, h.prefix_led,
    fun U hU => hg.voted hU (h.voted U hU), fun c hc => hg.committed (h.committed c hc),
    fun j c hc => ?_, h.joining⟩
  · obtain ⟨-, hlead, hsame⟩ := hother hp
    rw [hsame]
    exact h.leader p hlead
  · obtain ⟨-, hlead, hsame⟩ := hother hp
    obtain ⟨-, hlead', hsame'⟩ := hother hq
    rw [hsame, hsame'] at heq
    exact h.one p q hlead hlead' heq
  · -- a candidacy in the present term is one in the term before
    obtain ⟨hjoin, hle, hsame⟩ := h.candidacy c hc
    refine ⟨hjoin, hle.trans (hg.term _), fun heq => hsame ?_⟩
    exact le_antisymm hle ((hg.term _).trans heq.ge)
  · obtain ⟨hle, hel, hown, hk⟩ := h.taken j U x hx
    refine ⟨hle.trans (hg.term j), hel, hown, fun r hr hr' => (hk r hr hr').imp id ?_⟩
    exact fun ⟨W, hUW, hW, hlost⟩ => ⟨W, hUW, hW.trans (hg.term j), hlost⟩
  · obtain ⟨⟨U, hU, hin⟩, hget⟩ := h.known j c hc
    exact ⟨⟨U, hU.trans (hg.term j), hin⟩, hget⟩

/-- A replica becomes a candidate of a later term. -/
theorem stand (h : Sound term idx quorum a) (hT : a.term i ≤ T) (hjoined : a.joined i = true) :
    Sound term idx quorum (a.stand i T) := by
  have hf := h.follow hT
  have hg := h.evolves (.stand hT hjoined)
  refine ⟨hf.logs, hf.source, hf.term_le, hf.leader, hf.one, hf.unled, hf.elect, hf.created,
    fun c hc => ?_, fun b hb => hg.vote (h.vote b hb), hf.taken, hf.prefix_led,
    fun U hU => hg.voted hU (h.voted U hU), fun c hc => hg.committed (h.committed c hc), hf.known,
    hf.joining⟩
  rcases List.mem_cons.mp hc with rfl | hc
  · refine ⟨hjoined, ?_, fun _ => .inl rfl⟩
    show T ≤ Function.update a.term i T i
    rw [Function.update_self]
  · exact hf.candidacy c hc

/-- A replica votes for a candidate of a later term that is not behind. -/
theorem grant {c : Candidacy ι α τ} (h : Sound term idx quorum a) (hc : c ∈ a.candidacies)
    (hT : a.term i < c.term) (hbehind : LastLe term idx (a.hist i) c.log) :
    Sound term idx quorum (a.grant i c) := by
  have hf := h.follow hT.le
  have hg := h.evolves (.grant hc hT hbehind)
  refine ⟨hf.logs, hf.source, hf.term_le, hf.leader, hf.one, hf.unled, hf.elect, hf.created,
    hf.candidacy, fun b hb => ?_, hf.taken, hf.prefix_led, fun U hU => hg.voted hU (h.voted U hU),
    fun c hc => hg.committed (h.committed c hc), hf.known, hf.joining⟩
  rcases List.mem_cons.mp hb with rfl | hb
  · refine ⟨?_, h.source i, ⟨c, hc, rfl, rfl, hbehind⟩, fun U r hr hown _ => ?_⟩
    · show c.term ≤ Function.update a.term i c.term i
      rw [Function.update_self]
    · -- a leader without the records is one of a term before that of the vote
      obtain ⟨-, -, -, hk⟩ := h.taken i U _ (hr.mem hown.choose_spec.1)
      refine (hk r hr hown).imp id fun ⟨W, hUW, hW, hlost⟩ => ?_
      exact ⟨W, hUW, lt_of_le_of_lt hW hT, hlost⟩
  · exact hg.vote (h.vote b hb)

/-- A candidate becomes leader of a term that has none, with enough votes. -/
theorem lead (h : Sound term idx quorum a) (hjoined : a.joined i = true)
    (hnone : ¬ a.elected (a.term i)) {V : ι → Prop} (hV : quorum V)
    (hvotes : ∀ k, V k → k = i ∨ ∃ b ∈ a.votes, b.voter = k ∧ b.candidate = i ∧ b.term = a.term i) :
    Sound term idx quorum (a.lead i) := by
  have hempty := h.unled _ hnone
  have hne : ∀ {U}, a.elected U → U ≠ a.term i := by
    rintro U hU rfl
    exact hnone hU
  have hgrow : a.led (a.term i) <+: a.hist i := hempty ▸ List.nil_prefix
  have hg := h.evolves (.lead hjoined hnone hV hvotes)
  have hleads : ∀ {p}, (a.lead i).leads p = true → p = i ∨ p ≠ i ∧ a.leads p = true := by
    intro p hp
    by_cases hpi : p = i
    · exact .inl hpi
    · rw [leads_lead, Function.update_of_ne hpi] at hp
      exact .inr ⟨hpi, hp⟩
  refine ⟨?_, fun j => (h.source j).grow hg.led, h.term_le, fun p hp => ?_, fun p q hp hq heq => ?_,
    fun U hU => ?_, fun U hU => ?_, fun U x hx => ?_, fun c hc => ?_,
    fun b hb => hg.vote (h.vote b hb), fun j U x hx => ?_, fun j U => (h.prefix_led j U).trans (hg.led U),
    fun U hU => ?_, fun c hc => hg.committed (h.committed c hc), h.known, h.joining⟩
  · exact h.logs.update hgrow ((h.source i).grow hg.led) (h.term_le i)
      (h.logs.increasing_of (h.source i))
  · rcases hleads hp with rfl | ⟨-, hp⟩
    · exact ⟨hjoined, .inr rfl, Function.update_self ..⟩
    · obtain ⟨hjoin, hel, hled⟩ := h.leader p hp
      refine ⟨hjoin, .inl hel, ?_⟩
      rw [led_lead, show (a.lead i).term = a.term from rfl, Function.update_of_ne (hne hel)]
      exact hled
  · rcases hleads hp with hpi | ⟨-, hp⟩ <;> rcases hleads hq with hqi | ⟨-, hq⟩
    · exact hpi.trans hqi.symm
    · exact absurd (heq.symm.trans (congrArg a.term hpi)) (hne (h.leader q hq).2.1)
    · exact absurd (heq.trans (congrArg a.term hqi)) (hne (h.leader p hp).2.1)
    · exact h.one p q hp hq heq
  · have hUi : U ≠ a.term i := fun hcon => hU (.inr hcon)
    rw [led_lead, Function.update_of_ne hUi]
    exact h.unled U fun hcon => hU (.inl hcon)
  · by_cases hUi : U = a.term i
    · subst hUi
      rw [base_lead, led_lead, Function.update_self, Function.update_self]
      refine ⟨List.prefix_refl _, fun x hx => ?_, fun x hx => ?_⟩
      · -- nobody has a record of a term that had no leader
        exact lt_of_le_of_ne (h.term_le i x hx) (hne (h.elected_of_mem hx))
      · rw [List.drop_length] at hx
        cases hx
    · have hold : a.elected U := hU.resolve_right hUi
      rw [base_lead, led_lead, Function.update_of_ne hUi, Function.update_of_ne hUi]
      exact h.elect U hold
  · by_cases hUi : U = a.term i
    · subst hUi
      rw [led_lead, Function.update_self] at hx
      exact .inl (h.elected_of_mem hx)
    · rw [led_lead, Function.update_of_ne hUi] at hx
      exact .inl (h.created U x hx)
  · obtain ⟨hjoin, hle, hsame⟩ := h.candidacy c hc
    exact ⟨hjoin, hle, fun heq => (hsame heq).imp id .inl⟩
  · obtain ⟨hle, hel, hown, hk⟩ := h.taken j U x hx
    refine ⟨hle, .inl hel, hown, fun r hr hr' => (hk r hr hr').imp id ?_⟩
    rintro ⟨W, hUW, hW, helW, hlost⟩
    exact ⟨W, hUW, hW, .inl helW, by rwa [hg.base W helW]⟩
  · by_cases hUi : U = a.term i
    · subst hUi
      refine ⟨V, hV, fun k hk => ?_⟩
      rcases hvotes k hk with rfl | ⟨b, hb, rfl, hcand, hbterm⟩
      · -- the new leader has what it has taken
        refine ⟨le_refl _, fun T r hr hown hT => ?_⟩
        obtain ⟨-, -, -, hk⟩ := h.taken k T _ (hr.mem hown.choose_spec.1)
        obtain hpre | ⟨W, hTW, hW, helW, hlost⟩ := hk r hr hown
        · left
          rwa [base_lead, Function.update_self]
        · refine .inr ⟨a.hist k, (h.source k).grow hg.led, ?_, .inr ⟨W, hTW, ?_, .inl helW, ?_⟩⟩
          · rw [base_lead, Function.update_self]
            exact LastLe.refl _
          · exact lt_of_le_of_ne hW (hne helW)
          · rwa [hg.base W helW]
      · -- the voter was not ahead of the candidate, whose log is the one it had then
        obtain ⟨hle, hf, ⟨c, hc, hccand, hcterm, hbehind⟩, hkeeps⟩ := h.vote b hb
        obtain ⟨-, -, hsame⟩ := h.candidacy c hc
        have hci : c.candidate = i := hccand.trans hcand
        have hlog : a.hist i = c.log := by
          have hcases := hsame (by rw [hcterm, hbterm, hci])
          rw [hcterm, hbterm, hci] at hcases
          exact hcases.resolve_right hnone
        refine ⟨hbterm ▸ hle, fun T r hr hown hT => .inr ⟨b.log, hf.grow hg.led, ?_, ?_⟩⟩
        · rw [base_lead, Function.update_self, hlog]
          exact hbehind
        · rw [← hbterm] at hT ⊢
          exact hg.keeps_log (hkeeps T r hr hown hT)
    · have hold : a.elected U := hU.resolve_right hUi
      exact hg.voted hold (h.voted U hold)

/-- A step keeps the invariant. -/
theorem move [WellFoundedLT τ] (hmeet : ∀ V Q, quorum V → quorum Q → ∃ k, V k ∧ Q k)
    (h : Sound term idx quorum a) (hm : Move term idx quorum a a') : Sound term idx quorum a' := by
  cases hm with
  | append hlead hterm hidx => exact h.append hlead hterm hidx
  | copy hlead hnot hjoined hterm hpart hown => exact h.copy hlead hnot hjoined hterm hpart hown
  | truncate hlead hnot hterm hcut => exact h.truncate hmeet hlead hnot hterm hcut
  | commit hlead hown hes => exact h.commit hlead hown hes
  | learn hjoined hes => exact h.learn hjoined hes
  | join hnew hf hterm => exact h.join hnew hf hterm
  | follow hT => exact h.follow hT
  | stand hT hjoined => exact h.stand hT hjoined
  | grant hc hT hbehind => exact h.grant hc hT hbehind
  | lead hjoined hnone hV hvotes => exact h.lead hjoined hnone hV hvotes

/-- A run of new replicas keeps the invariant. -/
theorem run [WellFoundedLT τ] (hmeet : ∀ V Q, quorum V → quorum Q → ∃ k, V k ∧ Q k)
    (hr : Relation.ReflTransGen (Move term idx quorum) (Replicas.new T) a) :
    Sound term idx quorum a := by
  induction hr with
  | refl => exact Sound.new T
  | tail _ hm ih => exact ih.move hmeet hm

end Sound

end Replicas

end Apus.Lib
