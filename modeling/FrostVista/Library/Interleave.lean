import FrostVista.Library.Prog

/-!
# Programs in turn

Any number of processes run programs over one state, each performing its operations one after the
other while the others do the same. `Config.Obeyed.perform` lifts rules that each program follows by
itself to all interleavings: it is enough that every operation, performed in line with the rules,
keeps the local views of all processes consistent with the state.
-/
namespace Lib

open Function

/-- The state and what is left of the program of each process. -/
structure Config (S : Ops) (σ T α : Type) where
  state : σ
  prog : T → Option (Prog S α)

namespace Config

variable {S : Ops} {σ ε T α : Type} [DecidableEq T]

/-- The process performs its next operation; `none` if it has none or has to wait. -/
def perform (h : T → (o : S.Op) → Comp σ ε (S.Res o)) (c : Config S σ T α) (t : T) :
    Option (Config S σ T α) :=
  match c.prog t with
  | some (.op o k) =>
    match h t o c.state with
    | .ok (r, s) => some ⟨s, Function.update c.prog t (some (k r))⟩
    | .error _ => none
  | _ => none

/-- The operation that the process performs next. -/
def Next (c : Config S σ T α) (t : T) (o : S.Op) : Prop := ∃ k, c.prog t = some (.op o k)

variable {h : T → (o : S.Op) → Comp σ ε (S.Res o)} {c c' : Config S σ T α} {t : T}

lemma perform_eq_some : perform h c t = some c' ↔ ∃ o k r s, c.prog t = some (.op o k) ∧
    (h t o).run c.state = .ok (r, s) ∧ c' = ⟨s, update c.prog t (some (k r))⟩ := by
  constructor
  · intro hn
    unfold perform at hn
    split at hn
    · rename_i o k hp
      split at hn
      · rename_i r s hr
        exact ⟨o, k, r, s, hp, hr, (Option.some.inj hn).symm⟩
      · cases hn
    · cases hn
  · rintro ⟨o, k, r, s, hp, hr, rfl⟩
    unfold Comp.run at hr
    simp only [perform, hp, hr]

variable {G : Type} {pre : (o : S.Op) → G → (S.Res o → G → Prop) → Prop} {post : α → G → Prop}
  {View : σ → (T → G) → Prop}

/-- The views are consistent with the state, and every program follows the rules with its view. -/
def Obeyed (pre : (o : S.Op) → G → (S.Res o → G → Prop) → Prop) (post : α → G → Prop)
    (View : σ → (T → G) → Prop) (c : Config S σ T α) : Prop :=
  ∃ views : T → G, View c.state views ∧ ∀ t x, c.prog t = some x → Prog.Obeys pre x (views t) post

/-- The program of one process and the state are replaced, in a way that leaves the views of the
others consistent with the state. -/
lemma Obeyed.replace (hc : Obeyed pre post View c)
    (hx : ∀ views, View c.state views → (∀ y, c.prog t = some y → Prog.Obeys pre y (views t) post) →
      ∃ g, View s (update views t g) ∧ ∀ y, x = some y → Prog.Obeys pre y g post) :
    Obeyed pre post View ⟨s, update c.prog t x⟩ := by
  obtain ⟨views, hview, hobeys⟩ := hc
  obtain ⟨g, hview', hg⟩ := hx views hview (hobeys t)
  refine ⟨_, hview', fun u y hy => ?_⟩
  change update c.prog t x u = some y at hy
  by_cases hut : u = t
  · subst hut
    rw [update_self] at hy ⊢
    exact hg y hy
  · rw [update_of_ne hut] at hy ⊢
    exact hobeys u y hy

lemma Obeyed.perform (hc : Obeyed pre post View c) (hp : Config.perform h c t = some c')
    (hop : ∀ o r s views Q, c.Next t o → View c.state views → pre o (views t) Q →
      (h t o).run c.state = .ok (r, s) → ∃ g, View s (update views t g) ∧ Q r g) :
    Obeyed pre post View c' := by
  obtain ⟨o, k, r, s, hprog, hr, rfl⟩ := perform_eq_some.mp hp
  refine hc.replace fun views hview hobeys => ?_
  obtain ⟨g, hview', hQ⟩ := hop o r s views _ ⟨k, hprog⟩ hview (hobeys _ hprog) hr
  refine ⟨g, hview', fun y hy => ?_⟩
  rwa [← Option.some.inj hy]

omit [DecidableEq T] in
lemma Obeyed.next (hc : Obeyed pre post View c) (ho : c.Next t o) :
    ∃ views Q, View c.state views ∧ pre o (views t) Q := by
  obtain ⟨views, hview, hobeys⟩ := hc
  obtain ⟨k, hk⟩ := ho
  exact ⟨views, _, hview, hobeys t _ hk⟩

end Config

end Lib
