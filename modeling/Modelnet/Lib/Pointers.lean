import Mathlib.Data.Set.Basic
import Mathlib.Logic.Relation

/-!
# Chains of pointers

Each node either holds what is looked for or points at another node. `Ends points holds a` says that
whoever follows the pointers from `a` comes to a node that holds it. A change at one node keeps this
everywhere, if it keeps it at that node (`Ends.change`); chains that end have no cycle
(`Ends.acyclic`).
-/

open Relation

/-- From `a`, the pointers lead to a node that holds what is looked for. -/
def Ends {α : Type*} (points : α → α → Prop) (holds : Set α) (a : α) : Prop :=
  ∃ b ∈ holds, ReflTransGen points a b

namespace Ends

variable {α : Type*} {points points' : α → α → Prop} {holds holds' : Set α} {a b c : α}

theorem here (h : a ∈ holds) : Ends points holds a := ⟨a, h, ReflTransGen.refl⟩

theorem next (h : points a b) (hb : Ends points holds b) : Ends points holds a := by
  obtain ⟨z, hz, hbz⟩ := hb
  exact ⟨z, hz, hbz.head h⟩

theorem chain {motive : α → Prop} (hhere : ∀ a ∈ holds, motive a)
    (hnext : ∀ a b, points a b → motive b → motive a) (h : Ends points holds a) : motive a := by
  obtain ⟨z, hz, haz⟩ := h
  induction haz using ReflTransGen.head_induction_on with
  | refl => exact hhere z hz
  | head hab _ ih => exact hnext _ _ hab ih

/-- **A change at one node.** If the chain from the changed node ends, every chain still ends. -/
theorem change (c : α) (hpoints : ∀ a, a ≠ c → ∀ b, points a b → points' a b)
    (hholds : ∀ a, a ≠ c → a ∈ holds → a ∈ holds') (hc : Ends points' holds' c)
    (h : Ends points holds a) : Ends points' holds' a := by
  refine h.chain ?_ ?_
  · intro a ha
    by_cases heq : a = c
    · exact heq ▸ hc
    · exact here (hholds a heq ha)
  · intro a b hab hb
    by_cases heq : a = c
    · exact heq ▸ hc
    · exact hb.next (hpoints a heq b hab)

theorem mono (hpoints : ∀ a b, points a b → points' a b) (hholds : holds ⊆ holds')
    (h : Ends points holds a) : Ends points' holds' a := by
  obtain ⟨z, hz, haz⟩ := h
  exact ⟨z, hholds hz, haz.lift id hpoints⟩

/-- **Chains that end have no cycle**: no node on the way points back to itself. -/
theorem acyclic (hfun : ∀ a b c, points a b → points a c → b = c)
    (hstop : ∀ a ∈ holds, ∀ b, ¬ points a b) (h : Ends points holds a) {z : α}
    (haz : ReflTransGen points a z) : ¬ TransGen points z z := by
  -- along the chain from `a`: the node that is on a cycle can only be further on
  refine h.chain (motive := fun a => ∀ z, ReflTransGen points a z → ¬ TransGen points z z)
    ?_ ?_ z haz
  · intro a ha z haz hzz
    have hza : z = a := (reflTransGen_iff_eq (hstop a ha)).mp haz
    obtain ⟨b, hab, -⟩ := TransGen.head'_iff.mp (hza ▸ hzz)
    exact hstop a ha b hab
  · intro a b hab ih z haz hzz
    obtain rfl | ⟨c, hac, hcz⟩ := ReflTransGen.cases_head haz
    · obtain ⟨c, hac, hca⟩ := TransGen.head'_iff.mp hzz
      rw [← hfun a b c hab hac] at hca
      exact ih _ hca hzz
    · rw [← hfun a b c hab hac] at hcz
      exact ih z hcz hzz

end Ends
