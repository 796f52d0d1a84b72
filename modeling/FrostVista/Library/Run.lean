/-!
# Runs of a labelled transition system

A run performs a list of actions one after the other. An invariant that every step keeps holds
after every run, and a step-by-step refinement carries over to whole runs.
-/
namespace Lib

open List

variable {σ τ A : Type}

/-- The actions of the list lead from the first state to the last one. -/
inductive Run (step : σ → A → σ → Prop) : σ → List A → σ → Prop where
  | nil (s : σ) : Run step s [] s
  | cons {s t u : σ} {a : A} {acts : List A} :
      step s a t → Run step t acts u → Run step s (a :: acts) u

namespace Run

variable {step : σ → A → σ → Prop} {s t : σ} {acts : List A}

/-- What holds at the start and is kept by every step holds at the end. -/
theorem invariant (I : σ → Prop) (keep : ∀ s a t, I s → step s a t → I t)
    (h : Run step s acts t) (hs : I s) : I t := by
  induction h with
  | nil => exact hs
  | cons hstep _ ih => exact ih (keep _ _ _ hs hstep)

/-- If every step is a step of another system on what `abs` shows, so is every run. -/
theorem refine (I : σ → Prop) (abs : σ → τ)
    (keep : ∀ s a t, I s → step s a t → I t ∧ step' (abs s) a (abs t))
    (h : Run step s acts t) (hs : I s) : I t ∧ Run step' (abs s) acts (abs t) := by
  induction h with
  | nil s => exact ⟨hs, .nil (abs s)⟩
  | cons hstep _ ih =>
    obtain ⟨hI, hs'⟩ := keep _ _ _ hs hstep
    obtain ⟨hu, hrun⟩ := ih hI
    exact ⟨hu, .cons hs' hrun⟩

theorem append (h : Run step s acts t) (h' : Run step t acts' u) :
    Run step s (acts ++ acts') u := by
  induction h with
  | nil => exact h'
  | cons hstep _ ih => exact .cons hstep (ih h')

/-- The first part of a run, up to some action. -/
theorem split (h : Run step s (acts ++ acts') u) :
    ∃ t, Run step s acts t ∧ Run step t acts' u := by
  induction acts generalizing s with
  | nil => exact ⟨s, .nil s, h⟩
  | cons a acts ih =>
    cases h with
    | cons hstep hrest =>
      obtain ⟨t, h1, h2⟩ := ih hrest
      exact ⟨t, .cons hstep h1, h2⟩

theorem mono {step' : σ → A → σ → Prop} (h : Run step s acts t)
    (hsub : ∀ s a t, step s a t → step' s a t) : Run step' s acts t := by
  induction h with
  | nil s => exact .nil s
  | cons hstep _ ih => exact .cons (hsub _ _ _ hstep) ih

/-- The state after the actions, if every one of them can be taken. -/
def play (next : σ → A → Option σ) (s : σ) : List A → Option σ
  | [] => some s
  | a :: acts => (next s a).bind fun t => play next t acts

theorem of_play {next : σ → A → Option σ} {p : σ → Bool} (h : (play next s acts).any p = true) :
    ∃ t, Run (fun s a t => next s a = some t) s acts t ∧ p t = true := by
  induction acts generalizing s with
  | nil => exact ⟨s, .nil s, h⟩
  | cons a acts ih =>
    cases hnext : next s a with
    | none => simp [play, hnext] at h
    | some t =>
      rw [play, hnext] at h
      obtain ⟨u, hrun, hp⟩ := ih h
      exact ⟨u, .cons hnext hrun, hp⟩

/-- A run of actions that are allowed in every state. -/
theorem restrict {P : σ → A → Prop} (h : Run step s acts t) (hok : ∀ a ∈ acts, ∀ s, P s a) :
    Run (fun s a t => P s a ∧ step s a t) s acts t := by
  induction h with
  | nil => exact .nil _
  | cons hstep _ ih =>
    exact .cons ⟨hok _ mem_cons_self _, hstep⟩ (ih fun a ha => hok a (mem_cons_of_mem _ ha))

/-- An invariant that also speaks about the actions so far, when every action is one that `ok`
allows after those before it. -/
theorem history (I : List A → σ → Prop) (ok : List A → A → Prop)
    (keep : ∀ before s a t, I before s → ok before a → step s a t → I (before ++ [a]) t)
    (h : Run step s acts t) (hs : I [] s)
    (hok : ∀ before a after, acts = before ++ a :: after → ok before a) : I acts t := by
  suffices hgen : ∀ before, I before s →
      (∀ mid a after, acts = mid ++ a :: after → ok (before ++ mid) a) → I (before ++ acts) t from
    hgen [] hs hok
  clear hs hok
  induction h with
  | nil s =>
    intro before hI _
    rwa [append_nil]
  | @cons s t u a acts hstep _ ih =>
    intro before hI hok
    have hhead := hok [] a acts rfl
    rw [append_nil] at hhead
    have hnext := ih (before ++ [a]) (keep before s a t hI hhead hstep) fun mid b after he => ?_
    · rwa [append_assoc, singleton_append] at hnext
    · have := hok (a :: mid) b after (by rw [he, cons_append])
      rwa [append_assoc, singleton_append]

end Run

end Lib
