import Mathlib.Logic.Function.Conjugate
import ShoreMetadata.Proofs.Import.Recorded
import ShoreMetadata.Proofs.Rearranged

/-! Runs through lists in another order. A step may fail and note problems, but what it does to a
state does not depend on the state, and steps of different keys commute. -/

namespace ShoreMetadata.Recorded

variable {σ : Type}

/-- A step fails for every state or changes every state in the same way, which is as wanted. -/
def Acts (P : (σ → σ) → Prop) (step : σ → Recorded σ) : Prop :=
  ∃ change : Recorded (σ → σ), Yields P change ∧ ∀ s, step s = change >>= fun g => .ok (g s)

namespace Acts

variable {P Q : (σ → σ) → Prop} {step step' : σ → Recorded σ}

theorem ok {g : σ → σ} (wanted : P g) : Acts P fun s => .ok (g s) :=
  ⟨.ok g, .ok wanted, fun _ => rfl⟩

theorem fail (e : Error) : Acts P fun _ => .fail e :=
  ⟨.fail e, .fail e, fun _ => rfl⟩

theorem exchange (first : Acts P step) (second : Acts Q step')
    (commute : ∀ g h, P g → Q h → Function.Commute g h) (next : σ → Recorded α) (s : σ) :
    Agree Eq (step s >>= fun s => step' s >>= next) (step' s >>= fun s => step s >>= next) := by
  obtain ⟨change, wanted, acts⟩ := first
  obtain ⟨change', wanted', acts'⟩ := second
  simp only [acts, acts', bind_assoc, bind_ok]
  refine Agree.exchange fun g h ended ended' => ?_
  rw [(commute g h (wanted g ended) (wanted' h ended')).eq s]
  exact .refl (fun _ => rfl) _

end Acts

/-- A run does not see the order of steps, but for that of one key. -/
theorem foldlM_rearranged {κ : Type} [DecidableEq κ] {key : α → Option κ}
    {P : α → (σ → σ) → Prop} {step : σ → α → Recorded σ}
    (acts : ∀ a, Acts (P a) (step · a))
    (commute : ∀ a b, Apart key a b → ∀ g h, P a g → P b h → Function.Commute g h)
    {xs ys : List α} (order : Rearranged key xs ys) (s : σ) :
    Agree Eq (xs.foldlM step s) (ys.foldlM step s) := by
  have exchanges : Exchanges key fun xs ys =>
      ∀ s, Agree Eq (xs.foldlM step s) (ys.foldlM step s) := by
    refine ⟨fun s => ?_, fun x alike s => ?_, fun rest apart s => ?_, fun first second s => ?_⟩
    · exact .ok rfl
    · rw [List.foldlM_cons, List.foldlM_cons]
      exact (Agree.refl (fun _ => rfl) _).bind_eq alike
    · simp only [List.foldlM_cons]
      exact (acts _).exchange (acts _) (commute _ _ apart) _ s
    · exact (first s).trans (second s) fun _ _ _ => Eq.trans
  exact exchanges.of_rearranged order s

end ShoreMetadata.Recorded
