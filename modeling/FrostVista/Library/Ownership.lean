import Mathlib.Data.Set.Defs

/-!
# Exclusive ownership

Every resource of a domain belongs to exactly one owner, and owners have nothing outside the
domain. Resources change hands one at a time.
-/
namespace Lib

structure Exclusive {P O : Type} (dom : P → Prop) (own : P → O → Prop) : Prop where
  owned : ∀ p, dom p → ∃ o, own p o
  unique : ∀ p o o', own p o → own p o' → o = o'
  inside : ∀ p o, own p o → dom p

namespace Exclusive

variable {P O : Type} {dom : P → Prop} {own own' : P → O → Prop} {q : P} {o0 : O}

lemma congr (h : Exclusive dom own) (he : ∀ p o, own' p o ↔ own p o) : Exclusive dom own' where
  owned p hp := by
    obtain ⟨o, ho⟩ := h.owned p hp
    exact ⟨o, (he p o).mpr ho⟩
  unique p o o' ho ho' := h.unique p o o' ((he p o).mp ho) ((he p o').mp ho')
  inside p o ho := h.inside p o ((he p o).mp ho)

lemma transfer (h : Exclusive dom own) (o1 : O) (hq : own q o0) (hq' : ∀ o, own' q o ↔ o = o1)
    (hne : ∀ p, p ≠ q → ∀ o, own' p o ↔ own p o) : Exclusive dom own' where
  owned p hp := by
    by_cases hpq : p = q
    · subst hpq
      exact ⟨o1, (hq' o1).mpr rfl⟩
    · obtain ⟨o, ho⟩ := h.owned p hp
      exact ⟨o, (hne p hpq o).mpr ho⟩
  unique p o o' ho ho' := by
    by_cases hpq : p = q
    · subst hpq
      exact ((hq' o).mp ho).trans ((hq' o').mp ho').symm
    · exact h.unique p o o' ((hne p hpq o).mp ho) ((hne p hpq o').mp ho')
  inside p o ho := by
    by_cases hpq : p = q
    · subst hpq
      exact h.inside p o0 hq
    · exact h.inside p o ((hne p hpq o).mp ho)

lemma eq_owner (h : Exclusive dom own) (hq : own q o0) (o : O) : own q o ↔ o = o0 := by
  constructor
  · exact fun ho => h.unique q o o0 ho hq
  · rintro rfl
    exact hq

end Exclusive

end Lib
