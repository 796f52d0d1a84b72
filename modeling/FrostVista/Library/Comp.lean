import Mathlib.Logic.Function.Basic
import Mathlib.Logic.Relation

/-!
# Stateful computations that may stop with an error

A computation reads and changes a state and either returns a value or stops. The module gives
the monad, its evaluation rules, counted loops with and without early exit, and two kinds of
contracts: `Total`, which promises a result, and `Ensures`, which only speaks about a result that
exists.
-/
namespace Lib

/-- A computation over the state `σ` that may stop with an `ε`. -/
def Comp (σ ε α : Type) : Type := σ → Except ε (α × σ)

namespace Comp

variable {σ ε α β : Type}

def run (x : Comp σ ε α) (s : σ) : Except ε (α × σ) := x s

instance : Monad (Comp σ ε) where
  pure a := fun s => .ok (a, s)
  bind x f := fun s =>
    match x s with
    | .ok (a, t) => f a t
    | .error e => .error e

def get : Comp σ ε σ := fun s => .ok (s, s)

def modify (f : σ → σ) : Comp σ ε Unit := fun s => .ok ((), f s)

def gets (f : σ → α) : Comp σ ε α := fun s => .ok (f s, s)

def fail (e : ε) : Comp σ ε α := fun _ => .error e

/-- Runs `x` if `b` holds. -/
def when (b : Bool) (x : Comp σ ε Unit) : Comp σ ε Unit := if b then x else pure ()

/-- Stops with `e` unless `b` holds. -/
def guard (b : Bool) (e : ε) : Comp σ ε Unit := if b then pure () else fail e

/-- Runs a computation on a part of a larger state. -/
def zoom {τ : Type} (part : τ → σ) (put : σ → τ → τ) (x : Comp σ ε α) : Comp τ ε α := fun t =>
  match x (part t) with
  | .ok (a, s) => .ok (a, put s t)
  | .error e => .error e

@[simp] lemma run_pure (a : α) (s : σ) : (pure a : Comp σ ε α).run s = .ok (a, s) := rfl

@[simp] lemma run_get (s : σ) : (get : Comp σ ε σ).run s = .ok (s, s) := rfl

@[simp] lemma run_modify (f : σ → σ) (s : σ) :
    (modify f : Comp σ ε Unit).run s = .ok ((), f s) := rfl

@[simp] lemma run_gets (f : σ → α) (s : σ) : (gets f : Comp σ ε α).run s = .ok (f s, s) := rfl

@[simp] lemma run_fail (e : ε) (s : σ) : (fail e : Comp σ ε α).run s = .error e := rfl

lemma run_bind (x : Comp σ ε α) (f : α → Comp σ ε β) (s : σ) : (x >>= f).run s = match x.run s with
      | .ok (a, t) => (f a).run t
      | .error e => .error e := rfl

variable {a : α} {s : σ} {x : Comp σ ε α} {e : ε}

lemma run_bind_ok (h : x.run s = .ok (a, t))
    (f : α → Comp σ ε β) : (x >>= f).run s = (f a).run t := by
  rw [run_bind, h]

lemma run_bind_error (h : x.run s = .error e) (f : α → Comp σ ε β) :
    (x >>= f).run s = .error e := by
  rw [run_bind, h]

lemma bind_assoc {γ : Type} (x : Comp σ ε α) (f : α → Comp σ ε β) (g : β → Comp σ ε γ) :
    x >>= f >>= g = x >>= fun a => f a >>= g := by
  funext s
  change Comp.run (x >>= f >>= g) s = Comp.run (x >>= fun a => f a >>= g) s
  rw [run_bind, run_bind, run_bind]
  cases x.run s with
  | error e => rfl
  | ok r => rfl

/-- A sequence succeeds exactly when both of its parts do, one after the other. -/
lemma run_bind_eq_ok : (x >>= f).run s = .ok (b, u) ↔
      ∃ a t, x.run s = .ok (a, t) ∧ (f a).run t = .ok (b, u) := by
  rw [run_bind]
  cases h : x.run s with
  | error e => simp
  | ok r =>
    obtain ⟨a, t⟩ := r
    constructor
    · intro hf
      exact ⟨a, t, rfl, hf⟩
    · rintro ⟨a', t', he, hf⟩
      cases he
      exact hf

lemma run_zoom_eq_ok :
    (zoom part put x).run t = .ok (a, u) ↔ ∃ s, x.run (part t) = .ok (a, s) ∧ u = put s t := by
  have hrun : (zoom part put x).run t = match x.run (part t) with
      | .ok (a, s) => .ok (a, put s t)
      | .error e => .error e := rfl
  rw [hrun]
  cases x.run (part t) with
  | error e => simp
  | ok r => grind

@[simp] lemma when_true (x : Comp σ ε Unit) : when true x = x := rfl

@[simp] lemma when_false (x : Comp σ ε Unit) : when false x = pure () := rfl

@[simp] lemma run_guard_eq_ok :
    (guard b e : Comp σ ε Unit).run s = .ok r ↔ b = true ∧ r = ((), s) := by
  cases b <;> simp [guard, eq_comm]

/-- Runs `body i`, `body (i + 1)`, and so on for `n` rounds. -/
def loop (body : Nat → Comp σ ε Unit) : Nat → Nat → Comp σ ε Unit
  | _, 0 => pure ()
  | i, n + 1 => do body i; loop body (i + 1) n

/-- Like `loop`, but a round that returns a value ends the loop with it. -/
def search (body : Nat → Comp σ ε (Option β)) : Nat → Nat → Comp σ ε (Option β)
  | _, 0 => pure none
  | i, n + 1 => do
    match ← body i with
    | some b => pure (some b)
    | none => search body (i + 1) n

/-! ## Total contracts -/

/-- Started in `s`, the computation returns, and its result satisfies `Q`. -/
def Total (x : Comp σ ε α) (s : σ) (Q : α → σ → Prop) : Prop :=
  ∃ a t, x.run s = .ok (a, t) ∧ Q a t

namespace Total

variable {x : Comp σ ε α} {f : α → Comp σ ε β} {s : σ} {Q Q' : α → σ → Prop}
  {R : β → σ → Prop}

variable {a : α} {t : σ}

lemma pure (h : Q a s) : Total (Pure.pure a : Comp σ ε α) s Q := ⟨a, s, rfl, h⟩

lemma bind (h : Total x s Q) (hf : ∀ a t, Q a t → Total (f a) t R) : Total (x >>= f) s R := by
  obtain ⟨a, t, hx, hq⟩ := h
  obtain ⟨b, u, hb, hr⟩ := hf a t hq
  exact ⟨b, u, by rw [run_bind_ok hx, hb], hr⟩

/-- The first part is known to return `a`. -/
lemma bind_ok (hx : x.run s = .ok (a, t)) (hf : Total (f a) t R) : Total (x >>= f) s R := by
  obtain ⟨b, u, hb, hr⟩ := hf
  exact ⟨b, u, by rw [run_bind_ok hx, hb], hr⟩

lemma mono (h : Total x s Q) (hq : ∀ a t, Q a t → Q' a t) : Total x s Q' := by
  obtain ⟨a, t, hx, ha⟩ := h
  exact ⟨a, t, hx, hq a t ha⟩

lemma modify {g : σ → σ} {Q : Unit → σ → Prop} (h : Q () (g s)) :
    Total (Comp.modify g : Comp σ ε Unit) s Q := ⟨(), g s, rfl, h⟩

lemma gets (h : Q (g s) s) : Total (Comp.gets g : Comp σ ε α) s Q :=
  ⟨g s, s, rfl, h⟩

/-- A total contract describes every result the computation has. -/
lemma of_run (h : Total x s Q) (hx : x.run s = .ok (a, t)) : Q a t := by
  obtain ⟨b, u, hb, hq⟩ := h
  rw [hx] at hb
  cases hb
  exact hq

lemma iff_of_run (hx : x.run s = .ok (a, t)) : Total x s Q ↔ Q a t :=
  ⟨fun h => h.of_run hx, fun hq => ⟨a, t, hx, hq⟩⟩

/-- The result of running the computation passes a test. -/
lemma of_eval {p : α → σ → Bool} (h : (match x.run s with
      | .ok (a, t) => p a t
      | .error _ => false) = true) : Total x s fun a t => p a t = true := by
  cases hx : x.run s with
  | error e =>
    rw [hx] at h
    cases h
  | ok r =>
    rw [hx] at h
    exact ⟨r.1, r.2, hx, h⟩

end Total

/-! ## Partial contracts -/

/-- Whatever the computation returns when started in `s` satisfies `Q`. -/
def Ensures (x : Comp σ ε α) (s : σ) (Q : α → σ → Prop) : Prop :=
  ∀ a t, x.run s = .ok (a, t) → Q a t

lemma Total.ensures (h : Total x s Q) : Ensures x s Q := fun _ _ hx => h.of_run hx

namespace Ensures

variable {x y : Comp σ ε α} {f : α → Comp σ ε β} {s : σ} {Q Q' : α → σ → Prop}
  {R : β → σ → Prop}

variable {a : α} {e : ε}

lemma pure (h : Q a s) : Ensures (Pure.pure a : Comp σ ε α) s Q := by
  intro b t hb
  cases hb
  exact h

lemma bind (h : Ensures x s Q) (hf : ∀ a t, Q a t → Ensures (f a) t R) : Ensures (x >>= f) s R := by
  intro b u hb
  obtain ⟨a, t, hx, hfa⟩ := run_bind_eq_ok.mp hb
  exact hf a t (h a t hx) b u hfa

lemma bind_ok (hx : x.run s = .ok (a, t)) (hf : Ensures (f a) t R) : Ensures (x >>= f) s R := by
  intro b u hb
  rw [run_bind_ok hx] at hb
  exact hf b u hb

/-- The first part is known to stop. -/
lemma bind_error (hx : x.run s = .error e) : Ensures (x >>= f) s R := by
  intro b u hb
  rw [run_bind_error hx] at hb
  cases hb

lemma mono (h : Ensures x s Q) (hq : ∀ a t, Q a t → Q' a t) : Ensures x s Q' :=
  fun a t hx => hq a t (h a t hx)

lemma fail : Ensures (Comp.fail e : Comp σ ε α) s Q := by
  intro a t h
  cases h

lemma modify {g : σ → σ} {Q : Unit → σ → Prop} (h : Q () (g s)) :
    Ensures (Comp.modify g : Comp σ ε Unit) s Q := by
  intro a t hx
  cases hx
  exact h

lemma ite {c : Prop} [Decidable c] (hx : c → Ensures x s Q) (hy : ¬c → Ensures y s Q) :
    Ensures (if c then x else y) s Q := by
  split
  · exact hx ‹_›
  · exact hy ‹_›

end Ensures

/-! ## Contracts with a condition for returning -/

/-- Whatever the computation returns satisfies `Q`, and under the condition `N` it returns. -/
def Meets (N : Prop) (x : Comp σ ε α) (s : σ) (Q : α → σ → Prop) : Prop :=
  Ensures x s Q ∧ (N → Total x s Q)

namespace Meets

variable {N : Prop} {x : Comp σ ε α} {f : α → Comp σ ε β} {s : σ} {Q Q' : α → σ → Prop}
  {R : β → σ → Prop}

lemma of_total (h : Total x s Q) : Meets N x s Q := ⟨h.ensures, fun _ => h⟩

variable {a : α} {i n : Nat}

lemma pure (h : Q a s) : Meets N (Pure.pure a : Comp σ ε α) s Q := of_total (.pure h)

lemma bind (h : Meets N x s Q) (hf : ∀ a t, Q a t → Meets N (f a) t R) : Meets N (x >>= f) s R :=
  ⟨h.1.bind fun a t hq => (hf a t hq).1, fun hN => (h.2 hN).bind fun a t hq => (hf a t hq).2 hN⟩

lemma bind_ok (hx : x.run s = .ok (a, t)) (hf : Meets N (f a) t R) : Meets N (x >>= f) s R :=
  ⟨.bind_ok hx hf.1, fun hN => .bind_ok hx (hf.2 hN)⟩

/-- The first part stops, which the condition excludes. -/
lemma bind_error (hx : x.run s = .error e) (hN : ¬N) : Meets N (x >>= f) s R :=
  ⟨.bind_error hx, fun h => absurd h hN⟩

lemma mono (h : Meets N x s Q) (hq : ∀ a t, Q a t → Q' a t) : Meets N x s Q' :=
  ⟨h.1.mono hq, fun hN => (h.2 hN).mono hq⟩

/-- The counted loop keeps an invariant indexed by the number of rounds done. -/
lemma loop (J : Nat → σ → Prop) (h : J i s)
    (step : ∀ k t, i ≤ k → k < i + n → J k t → Meets N (body k) t fun _ u => J (k + 1) u) :
    Meets N (Comp.loop body i n) s fun _ t => J (i + n) t := by
  induction n generalizing i s with
  | zero => exact pure h
  | succ n ih =>
    refine bind (step i s (Nat.le_refl _) (by omega) h) fun _ t ht => ?_
    refine (ih ht fun k u hk hn => step k u (by omega) (by omega)).mono fun _ u hu => ?_
    rwa [show i + (n + 1) = i + 1 + n by omega]

/-- The searching loop either stops early in `R` or ends with its invariant. -/
lemma search (J : Nat → σ → Prop) (h : J i s)
    (step : ∀ k t, i ≤ k → k < i + n → J k t →
      Meets N (body k) t fun o u => match o with
        | none => J (k + 1) u
        | some b => R b u) : Meets N (Comp.search body i n) s fun o t => match o with
      | none => J (i + n) t
      | some b => R b t := by
  induction n generalizing i s with
  | zero => exact pure h
  | succ n ih =>
    refine bind (step i s (Nat.le_refl _) (by omega) h) fun o t ht => ?_
    cases o with
    | some b => exact pure ht
    | none =>
      refine (ih ht fun k u hk hn => step k u (by omega) (by omega)).mono fun o u hu => ?_
      cases o with
      | some b => exact hu
      | none => simpa only [show i + (n + 1) = i + 1 + n by omega] using hu

end Meets

section Loops

variable {s : σ} {body : Nat → Comp σ ε Unit} (J : Nat → σ → Prop) {i n : Nat}

lemma Total.loop (h : J i s)
    (step : ∀ k t, i ≤ k → k < i + n → J k t → Total (body k) t fun _ u => J (k + 1) u) :
    Total (Comp.loop body i n) s fun _ t => J (i + n) t :=
  (Meets.loop (N := True) J h fun k t hk hn hJ => .of_total (step k t hk hn hJ)).2 trivial

lemma Ensures.loop (h : J i s)
    (step : ∀ k t, i ≤ k → k < i + n → J k t → Ensures (body k) t fun _ u => J (k + 1) u) :
    Ensures (Comp.loop body i n) s fun _ t => J (i + n) t :=
  (Meets.loop (N := False) J h fun k t hk hn hJ => ⟨step k t hk hn hJ, False.elim⟩).1

end Loops

end Comp

end Lib
