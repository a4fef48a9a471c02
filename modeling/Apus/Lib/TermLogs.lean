import Mathlib.Data.List.Infix
import Mathlib.Order.WellFounded

namespace Apus.Lib

/-!
# Logs of leaders

In each term one leader adds records to its log, and the other replicas copy it.  Up to each of its
records a log is then that of the leader of the record's term (`FromLeaders`).

* `FromLeaders.grow`, `LeaderLogs.update` — leaders add records, and there are new ones;
* `LeaderLogs.take_eq` — logs with a common record have the same records up to it;
* `LeaderLogs.prefix_of_same_term`, `LeaderLogs.prefix_of_lower_term` — what a log that is not behind
  another one has of it;
* `LeaderLogs.complete` — if every leader is not behind some log that starts with the records of a
  leader, or behind one that has lost them to a leader before, then every later leader starts with them.
-/

section TermLogs

variable {α τ ν : Type} {term : α → τ} {idx : α → ν} {led led' : τ → List α} {h h' : List α}
  {e e' : α} {k k' : Nat} {T : τ}

/-- Up to each of its records, the log is that of the leader of the record's term. -/
def FromLeaders (term : α → τ) (led : τ → List α) (h : List α) : Prop :=
  ∀ k e, h[k]? = some e → h.take (k + 1) = (led (term e)).take (k + 1)

theorem prefix_getElem? (hp : h <+: h') (he : h[k]? = some e) : h'[k]? = some e := by
  obtain ⟨more, rfl⟩ := hp
  obtain ⟨hk, -⟩ := List.getElem?_eq_some_iff.mp he
  rwa [List.getElem?_append_left hk]

namespace FromLeaders

theorem nil : FromLeaders term led [] := by
  intro k e he
  cases he

theorem take (hf : FromLeaders term led h) (n : Nat) : FromLeaders term led (h.take n) := by
  intro k e he
  have hk : k < n := by
    by_contra hcon
    rw [List.getElem?_eq_none (by rw [List.length_take]; omega)] at he
    cases he
  rw [List.getElem?_take_of_lt hk] at he
  rw [List.take_take, Nat.min_eq_left (by omega)]
  exact hf k e he

/-- The records up to one of them are those of the leader of its term. -/
theorem getElem?_eq (hf : FromLeaders term led h) (he : h[k]? = some e) (hk : k' ≤ k) :
    h[k']? = (led (term e))[k']? := by
  rw [← List.getElem?_take_of_lt (show k' < k + 1 by omega), hf k e he,
    List.getElem?_take_of_lt (by omega)]

theorem getElem?_self (hf : FromLeaders term led h) (he : h[k]? = some e) :
    (led (term e))[k]? = some e := (hf.getElem?_eq he (le_refl k)).symm.trans he

theorem mem (hf : FromLeaders term led h) (he : e ∈ h) : e ∈ led (term e) := by
  obtain ⟨k, hk⟩ := List.mem_iff_getElem?.mp he
  exact List.mem_of_getElem? (hf.getElem?_self hk)

/-- A log is a part of that of the leader of its last term. -/
theorem prefix_led (hf : FromLeaders term led h) (hlast : h.getLast? = some e) : h <+: led (term e) := by
  have hne : h ≠ [] := by
    rintro rfl
    cases hlast
  have hpos := List.length_pos_iff.mpr hne
  rw [List.getLast?_eq_getElem?] at hlast
  have htake := hf _ e hlast
  rw [List.take_of_length_le (by omega)] at htake
  exact htake ▸ List.take_prefix _ _

/-- The logs of the leaders get longer. -/
theorem grow (hf : FromLeaders term led h) (hgrow : ∀ T, led T <+: led' T) :
    FromLeaders term led' h := by
  intro k e he
  obtain ⟨more, hmore⟩ := hgrow (term e)
  obtain ⟨hk, -⟩ := List.getElem?_eq_some_iff.mp (hf.getElem?_self he)
  rw [hf k e he, ← hmore, List.take_append_of_le_length hk]

end FromLeaders

theorem prefix_update [DecidableEq τ] (hgrow : led T <+: h) (U : τ) :
    led U <+: Function.update led T h U := by
  by_cases hU : U = T
  · subst hU
    rwa [Function.update_self]
  · rw [Function.update_of_ne hU]

variable [LinearOrder τ] [LinearOrder ν]

/-- The logs of the leaders: each of them, too, has the records of earlier leaders, and of its own. -/
structure LeaderLogs (term : α → τ) (idx : α → ν) (led : τ → List α) : Prop where
  source : ∀ T, FromLeaders term led (led T)
  term_le : ∀ T, ∀ e ∈ led T, term e ≤ T
  increasing : ∀ T, (led T).Pairwise fun a b => idx a < idx b

/-- The last record of `h`, if there is one, is not above that of `h'`. -/
def LastLe (term : α → τ) (idx : α → ν) (h h' : List α) : Prop :=
  ∀ e ∈ h.getLast?, ∃ e' ∈ h'.getLast?, term e < term e' ∨ term e = term e' ∧ idx e ≤ idx e'

theorem LastLe.refl (h : List α) : LastLe term idx h h :=
  fun e he => ⟨e, he, .inr ⟨rfl, le_refl _⟩⟩

/-- The log started with `p`; unless a leader of a term between `T` and `U` did not start with it. -/
def Keeps (elected : τ → Prop) (base : τ → List α) (T U : τ) (p h : List α) : Prop :=
  p <+: h ∨ ∃ W, T < W ∧ W < U ∧ elected W ∧ ¬ p <+: base W

/-- What is known of the leader of `U` from one of its voters. -/
def Supports (term : α → τ) (idx : α → ν) (led : τ → List α) (elected : τ → Prop)
    (base : τ → List α) (T U : τ) (p : List α) : Prop :=
  p <+: base U ∨ ∃ h, FromLeaders term led h ∧ LastLe term idx h (base U) ∧ Keeps elected base T U p h

namespace LeaderLogs

/-- The terms do not decrease along a log. -/
theorem term_mono (hl : LeaderLogs term idx led) (hf : FromLeaders term led h)
    (he : h[k]? = some e) (he' : h[k']? = some e') (hk : k ≤ k') : term e ≤ term e' := by
  rw [hf.getElem?_eq he' hk] at he
  exact hl.term_le _ e (List.mem_of_getElem? he)

theorem term_le_last (hl : LeaderLogs term idx led) (hf : FromLeaders term led h) (he : e ∈ h)
    (hlast : h.getLast? = some e') : term e ≤ term e' := by
  obtain ⟨k, hk⟩ := List.mem_iff_getElem?.mp he
  obtain ⟨hlt, -⟩ := List.getElem?_eq_some_iff.mp hk
  rw [List.getLast?_eq_getElem?] at hlast
  exact hl.term_mono hf hk hlast (by omega)

/-- Index and term determine the place of a record. -/
theorem index_eq (hl : LeaderLogs term idx led) (hf : FromLeaders term led h)
    (hf' : FromLeaders term led h') (he : h[k]? = some e) (he' : h'[k']? = some e')
    (hterm : term e = term e') (hidx : idx e = idx e') : k = k' := by
  have hk := hf.getElem?_self he
  have hk' := hf'.getElem?_self he'
  rw [← hterm] at hk'
  have hinc := List.pairwise_iff_getElem.mp (hl.increasing (term e))
  obtain ⟨hlt, hget⟩ := List.getElem?_eq_some_iff.mp hk
  obtain ⟨hlt', hget'⟩ := List.getElem?_eq_some_iff.mp hk'
  rcases Nat.lt_trichotomy k k' with hless | heq | hmore
  · have habs := hinc k k' hlt hlt' hless
    rw [hget, hget', hidx] at habs
    exact absurd habs (lt_irrefl _)
  · exact heq
  · have habs := hinc k' k hlt' hlt hmore
    rw [hget, hget', hidx] at habs
    exact absurd habs (lt_irrefl _)

/-- The indices increase along a log. -/
theorem increasing_of (hl : LeaderLogs term idx led) (hf : FromLeaders term led h) :
    h.Pairwise fun a b => idx a < idx b := by
  refine List.pairwise_iff_getElem.mpr fun k k' hk hk' hlt => ?_
  have hget := List.getElem?_eq_getElem hk'
  obtain ⟨hled', heq'⟩ := List.getElem?_eq_some_iff.mp (hf.getElem?_self hget)
  have hbefore := hf.getElem?_eq hget hlt.le
  rw [List.getElem?_eq_getElem hk] at hbefore
  obtain ⟨hled, heq⟩ := List.getElem?_eq_some_iff.mp hbefore.symm
  have hinc := List.pairwise_iff_getElem.mp (hl.increasing (term h[k'])) k k' hled hled' hlt
  rwa [heq, heq'] at hinc

/-- Logs with a common record have the same records up to it, at the same places. -/
theorem take_eq (hl : LeaderLogs term idx led) (hf : FromLeaders term led h)
    (hf' : FromLeaders term led h') (he : h[k]? = some e) (he' : h'[k']? = some e) :
    k = k' ∧ h.take (k + 1) = h'.take (k + 1) := by
  obtain rfl := hl.index_eq hf hf' he he' rfl rfl
  exact ⟨rfl, (hf k e he).trans (hf' k e he').symm⟩

/-- A leader adds records to its log, or there is a new one. -/
theorem update [DecidableEq τ] (hl : LeaderLogs term idx led) (hgrow : led T <+: h)
    (hsource : FromLeaders term (Function.update led T h) h) (hterm : ∀ e ∈ h, term e ≤ T)
    (hinc : h.Pairwise fun a b => idx a < idx b) :
    LeaderLogs term idx (Function.update led T h) := by
  refine ⟨fun U => ?_, fun U => ?_, fun U => ?_⟩
  all_goals
    by_cases hU : U = T
  · subst hU
    rwa [Function.update_self]
  · rw [Function.update_of_ne hU]
    exact (hl.source U).grow (prefix_update hgrow)
  · subst hU
    rwa [Function.update_self]
  · rw [Function.update_of_ne hU]
    exact hl.term_le U
  · subst hU
    rwa [Function.update_self]
  · rw [Function.update_of_ne hU]
    exact hl.increasing U

/-- The log of a leader with another record of its term. -/
theorem source_append [DecidableEq τ] (hl : LeaderLogs term idx led) (hterm : term e = T) :
    FromLeaders term (Function.update led T (led T ++ [e])) (led T ++ [e]) := by
  intro k a ha
  rcases Nat.lt_or_ge k (led T).length with hk | hk
  · rw [List.getElem?_append_left hk] at ha
    rw [List.take_append_of_le_length hk]
    exact (hl.source T).grow (prefix_update (List.prefix_append _ _)) k a ha
  · obtain ⟨hlt, -⟩ := List.getElem?_eq_some_iff.mp ha
    rw [List.length_append, List.length_singleton] at hlt
    obtain rfl : k = (led T).length := by omega
    rw [List.getElem?_concat_length] at ha
    obtain rfl := Option.some.inj ha
    rw [hterm, Function.update_self]

/-- A log that is not behind `h`, with the last record in the same term, starts with `h`. -/
theorem prefix_of_same_term (hl : LeaderLogs term idx led) (hf : FromLeaders term led h)
    (hf' : FromLeaders term led h') (hlast : h.getLast? = some e) (hlast' : h'.getLast? = some e')
    (hterm : term e = term e') (hidx : idx e ≤ idx e') : h <+: h' := by
  -- both are parts of the log of one leader, and the indices say which is longer
  have hpre := hterm ▸ hf.prefix_led hlast
  have hpre' := hf'.prefix_led hlast'
  refine List.prefix_of_prefix_length_le hpre hpre' ?_
  by_contra hcon
  rw [List.getLast?_eq_getElem?] at hlast hlast'
  obtain ⟨hlt, hget⟩ := List.getElem?_eq_some_iff.mp (prefix_getElem? hpre hlast)
  obtain ⟨hlt', hget'⟩ := List.getElem?_eq_some_iff.mp (prefix_getElem? hpre' hlast')
  obtain ⟨hpos, -⟩ := List.getElem?_eq_some_iff.mp hlast'
  have habs := List.pairwise_iff_getElem.mp (hl.increasing (term e')) _ _ hlt' hlt (by omega)
  rw [hget, hget'] at habs
  exact absurd habs (not_lt.mpr hidx)

/-- A log starts with the records with lower terms of the leader of its last term. -/
theorem prefix_of_lower_term (hf : FromLeaders term led h) (hlast : h.getLast? = some e)
    {p : List α} (hp : p <+: led (term e)) (hlt : ∀ x ∈ p, term x < term e) : p <+: h := by
  have hpre := hf.prefix_led hlast
  refine List.prefix_of_prefix_length_le hp hpre ?_
  by_contra hcon
  -- its last record would be one of these
  obtain ⟨more, hmore⟩ := List.prefix_of_prefix_length_le hpre hp (by omega)
  have hmem : e ∈ p := hmore ▸ List.mem_append_left _ (List.mem_of_getLast? hlast)
  exact absurd (hlt e hmem) (lt_irrefl _)

/-- **Leader completeness.**  By induction on the term: a leader is not behind the log of a voter, so it
    has the records from the same leader as the voter, or from a leader between, which started with
    them. -/
theorem complete [WellFoundedLT τ] (hl : LeaderLogs term idx led) {elected : τ → Prop}
    {base : τ → List α} (hbase : ∀ U, elected U → base U <+: led U)
    (hpast : ∀ U, elected U → ∀ x ∈ base U, term x < U ∧ elected (term x)) {p : List α}
    (hp : p <+: led T) (hown : ∃ x ∈ p, term x = T)
    (hvote : ∀ U, elected U → T < U → Supports term idx led elected base T U p) :
    ∀ U, elected U → T < U → p <+: base U := by
  intro U
  induction U using WellFoundedLT.induction with
  | ind U ih =>
    intro hU hTU
    obtain hpre | ⟨h, hf, hbehind, hpre | ⟨W, hTW, hWU, hW, hnot⟩⟩ := hvote U hU hTU
    · exact hpre
    · obtain ⟨x, hx, rfl⟩ := hown
      obtain ⟨last, hlast⟩ : ∃ last, h.getLast? = some last := by
        cases hlast : h.getLast? with
        | none =>
          rw [List.getLast?_eq_none_iff.mp hlast] at hpre
          exact absurd (hpre.mem hx) List.not_mem_nil
        | some last => exact ⟨last, rfl⟩
      have hxlast := hl.term_le_last hf (hpre.mem hx) hlast
      obtain ⟨z, hz, hless⟩ := hbehind last hlast
      have hfU : FromLeaders term led (base U) := by
        obtain ⟨more, hmore⟩ := hbase U hU
        have hsource := (hl.source U).take (base U).length
        rwa [← hmore, List.take_left] at hsource
      rcases hless with hlt | ⟨hsame, hidx⟩
      · obtain ⟨hzU, hzled⟩ := hpast U hU z (List.mem_of_getLast? hz)
        have hTz : term x < term z := lt_of_le_of_lt hxlast hlt
        refine prefix_of_lower_term hfU hz ((ih (term z) hzU hzled hTz).trans (hbase _ hzled)) ?_
        exact fun y hy => lt_of_le_of_lt (hl.term_le _ y (hp.mem hy)) hTz
      · exact hpre.trans (hl.prefix_of_same_term hf hfU hlast hz hsame hidx)
    · exact absurd (ih W hWU hW hTW) hnot

end LeaderLogs

end TermLogs

end Apus.Lib
