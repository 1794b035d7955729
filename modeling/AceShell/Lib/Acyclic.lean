import Mathlib

/-!
# Graphs without infinite walks

A relation read as the edges of a directed graph. `Acyclic.update` is the rule for a step that
gives one vertex new edges: the graph stays acyclic when no new edge leads back to the vertex.
-/

namespace Graph

open Relation

variable {α : Type*} {R R' : α → α → Prop} {v x y : α}

def Acyclic (R : α → α → Prop) : Prop := WellFounded (Function.swap R)

theorem Acyclic.mono (h : Acyclic R) (hsub : ∀ x y, R' x y → R x y) : Acyclic R' :=
  Subrelation.wf (fun hyx => hsub _ _ hyx) h

theorem Acyclic.not_back (h : Acyclic R) (hxy : R x y) : ¬ ReflTransGen R y x := by
  intro hback
  have hcycle : TransGen R x x := TransGen.head' hxy hback
  have hirr := (WellFounded.transGen h).irrefl
  exact hirr.irrefl x (transGen_swap.mpr hcycle)

theorem Acyclic.acc_of_not_reaches (h : Acyclic R) (hother : ∀ x y, x ≠ v → R' x y → R x y)
    (hx : ¬ ReflTransGen R x v) : Acc (Function.swap R') x := by
  induction x using h.induction with
  | _ x ih =>
  refine ⟨x, fun y hxy => ?_⟩
  have hne : x ≠ v := by
    rintro rfl
    exact hx ReflTransGen.refl
  have hold : R x y := hother x y hne hxy
  exact ih y hold fun hy => hx (ReflTransGen.head hold hy)

/-- **New edges at one vertex.** -/
theorem Acyclic.update (h : Acyclic R) (hother : ∀ x y, x ≠ v → R' x y → R x y)
    (hv : ∀ y, R' v y → R v y ∨ ¬ ReflTransGen R y v) : Acyclic R' := by
  have hvacc : Acc (Function.swap R') v := by
    refine ⟨v, fun y hvy => h.acc_of_not_reaches hother ?_⟩
    rcases hv y hvy with hold | hnew
    · exact h.not_back hold
    · exact hnew
  refine ⟨fun x => ?_⟩
  induction x using h.induction with
  | _ x ih =>
  by_cases hxv : x = v
  · rw [hxv]
    exact hvacc
  · exact ⟨x, fun y hxy => ih y (hother x y hxv hxy)⟩

end Graph
