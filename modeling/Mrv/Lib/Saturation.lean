/-
  Mrv.Lib.Saturation — counts that saturate.

  Everybody has a count in each round.  The counts saturate at a threshold if whoever
  reaches it in a round has the largest count in all later rounds.  Then a lead by the
  threshold is never given back: leads compose, the later one is the lead of the
  composition (`Saturates.trans`), and two leads never go against each other.
-/
import Mathlib.Tactic

namespace Mrv.Saturation

variable {α : Type*}

/-- Who reaches the threshold in a round has the largest count in every later one. -/
def Saturates (count : α → ℕ → ℕ) (threshold : ℕ) : Prop :=
  ∀ t u r r', threshold ≤ count t r → r < r' → count u r' ≤ count t r'

/-- The first leads by the threshold in a round. -/
def Leads (count : α → ℕ → ℕ) (threshold : ℕ) (t u : α) (r : ℕ) : Prop :=
  count u r + threshold ≤ count t r

variable {count : α → ℕ → ℕ} {threshold : ℕ} {t u v : α} {r r' : ℕ}

/-- The leading one has reached the threshold. -/
theorem Leads.le (h : Leads count threshold t u r) : threshold ≤ count t r := by
  unfold Leads at h
  omega

/-- Nobody leads one that is saturated. -/
theorem Saturates.not_leads (hs : Saturates count threshold) (hpos : 0 < threshold)
    (hu : threshold ≤ count u r) (hlt : r < r') : ¬ Leads count threshold t u r' := by
  have hle := hs u t r r' hu hlt
  unfold Leads
  omega

/-- **Leads compose**, and the second is not the earlier one. -/
theorem Saturates.trans (hs : Saturates count threshold) (hpos : 0 < threshold)
    (h : Leads count threshold t u r) (h' : Leads count threshold u v r') :
    r ≤ r' ∧ Leads count threshold t v r' := by
  have hle : r ≤ r' := by
    by_contra hlt
    exact hs.not_leads hpos h'.le (not_le.mp hlt) h
  refine ⟨hle, ?_⟩
  obtain rfl | hlt := hle.eq_or_lt
  · unfold Leads at h h' ⊢
    omega
  · have hmax := hs t u r r' h.le hlt
    unfold Leads at h' ⊢
    omega

/-- Two leads do not go against each other. -/
theorem Saturates.not_flip (hs : Saturates count threshold) (hpos : 0 < threshold)
    (h : Leads count threshold t u r) : ¬ Leads count threshold u t r' := by
  intro h'
  have hself := (hs.trans hpos h h').2
  unfold Leads at hself
  omega

end Mrv.Saturation
