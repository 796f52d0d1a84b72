import FrostVista.Library.Comp

/-!
# Programs over a set of operations

A program is a tree of operations: it performs an operation and goes on with a program that depends
on the result. What the operations do to a state is given apart from the program, so that one
program can be run alone, to its end, or step by step in turn with others.
-/
namespace Lib

open Lib.Comp

/-- Operations and the types of their results. -/
structure Ops where
  Op : Type
  Res : Op → Type

inductive Prog (S : Ops) (α : Type) : Type where
  | pure (a : α)
  | op (o : S.Op) (k : S.Res o → Prog S α)

namespace Prog

variable {S : Ops} {α β γ σ ε : Type}

def bind : Prog S α → (α → Prog S β) → Prog S β
  | .pure a, f => f a
  | .op o k, f => .op o fun r => bind (k r) f

instance : Monad (Prog S) where
  pure := .pure
  bind := bind

/-- A single operation. -/
def perform (o : S.Op) : Prog S (S.Res o) := .op o .pure

@[simp] lemma pure_bind (a : α) (f : α → Prog S β) : (Pure.pure a : Prog S α) >>= f = f a := rfl

lemma op_bind (o : S.Op) (k : S.Res o → Prog S α) (f : α → Prog S β) :
    (Prog.op o k >>= f) = .op o fun r => k r >>= f := rfl

lemma bind_assoc (x : Prog S α) (f : α → Prog S β) (g : β → Prog S γ) :
    x >>= f >>= g = x >>= fun a => f a >>= g := by
  induction x with
  | pure a => rfl
  | op o k ih => exact congrArg (Prog.op o) (funext ih)

/-- Runs the program alone. -/
def run (h : (o : S.Op) → Comp σ ε (S.Res o)) : Prog S α → Comp σ ε α
  | .pure a => Pure.pure a
  | .op o k => h o >>= fun r => run h (k r)

variable {h : (o : S.Op) → Comp σ ε (S.Res o)}

@[simp] lemma run_pure (a : α) : run h (Pure.pure a : Prog S α) = Pure.pure a := rfl

@[simp] lemma run_bind (x : Prog S α) (f : α → Prog S β) :
    run h (x >>= f) = run h x >>= fun a => run h (f a) := by
  induction x with
  | pure a => rfl
  | op o k ih =>
    rw [op_bind, run, run, Comp.bind_assoc]
    congr 1
    funext r
    exact ih r

variable {a : α} {s u : σ} {x : Prog S α} {R : β → σ → Prop} {f : α → Prog S β}

lemma run_bind_ok (hx : (run h x).run s = .ok (a, u))
    (f : α → Prog S β) : (run h (x >>= f)).run s = (run h (f a)).run u := by
  rw [run_bind, Comp.run_bind_ok hx]

lemma run_bind_error (hx : (run h x).run s = .error e)
    (f : α → Prog S β) : (run h (x >>= f)).run s = .error e := by
  rw [run_bind, Comp.run_bind_error hx]

/-- The first part meets a contract. -/
lemma total_bind (hx : Total (run h x) s Q) (hf : ∀ a t, Q a t → Total (run h (f a)) t R) :
    Total (run h (x >>= f)) s R := by
  rw [run_bind]
  exact hx.bind hf

/-- The first part is known to return `a`. -/
lemma total_bind_ok (hx : (run h x).run s = .ok (a, u)) (hf : Total (run h (f a)) u R) :
    Total (run h (x >>= f)) s R := by
  rw [run_bind]
  exact .bind_ok hx hf

/-- Runs `body i`, `body (i + 1)`, and so on for `n` rounds. -/
def loop (body : Nat → Prog S Unit) : Nat → Nat → Prog S Unit
  | _, 0 => Pure.pure ()
  | i, n + 1 => do body i; loop body (i + 1) n

@[simp] lemma run_loop (body : Nat → Prog S Unit) (i n : Nat) :
    run h (loop body i n) = Comp.loop (fun k => run h (body k)) i n := by
  induction n generalizing i with
  | zero => rfl
  | succ n ih => simp only [loop, Comp.loop, run_bind, ih]

/-- The loop keeps an invariant indexed by the number of rounds done. -/
lemma total_loop (J : Nat → σ → Prop) (hs : J i s)
    (step : ∀ k t, i ≤ k → k < i + n → J k t → Total (run h (body k)) t fun _ u => J (k + 1) u) :
    Total (run h (loop body i n)) s fun _ t => J (i + n) t := by
  rw [run_loop]
  exact .loop J hs step

/-- Runs the program if `b` holds. -/
def when (b : Bool) (x : Prog S Unit) : Prog S Unit := if b then x else Pure.pure ()

/-! ## Local reasoning -/

section Obeys

variable {G : Type} {pre : (o : S.Op) → G → (S.Res o → G → Prop) → Prop} {x : Prog S α} {g : G}

/-- The program, started with the local view `g`, follows the rules that `pre` gives for the
operations, and ends with a result and a view in `Q`. `pre o g Q` says that the operation `o` may be
performed with the view `g`, and that `Q` holds for every result and view it can lead to. -/
def Obeys (pre : (o : S.Op) → G → (S.Res o → G → Prop) → Prop) :
    Prog S α → G → (α → G → Prop) → Prop
  | .pure a, g, Q => Q a g
  | .op o k, g, Q => pre o g fun r g' => Obeys pre (k r) g' Q

variable {Q : β → G → Prop} {f : α → Prog S β}

lemma obeys_bind : Obeys pre (x >>= f) g Q ↔ Obeys pre x g fun a g' => Obeys pre (f a) g' Q := by
  induction x generalizing g with
  | pure a => rfl
  | op o k ih =>
    rw [op_bind, Obeys, Obeys]
    refine iff_of_eq (congrArg (pre o g) ?_)
    funext r g'
    exact propext (ih r)

/-- The program follows the rules and does not change the view. -/
structure Neutral (pre : (o : S.Op) → G → (S.Res o → G → Prop) → Prop) (x : Prog S α) (g : G) :
    Prop where
  obeys : ∀ Q : α → G → Prop, (∀ a, Q a g) → Obeys pre x g Q

lemma neutral_pure : Neutral pre (Pure.pure a : Prog S α) g := ⟨fun _ hQ => hQ a⟩

lemma Neutral.bind (h : Neutral pre x g) (hf : ∀ a, Neutral pre (f a) g) :
    Neutral pre (x >>= f) g := ⟨fun Q hQ => obeys_bind.mpr (h.obeys _ fun a => (hf a).obeys Q hQ)⟩

/-- The view is still `g` for the rest of the program. -/
lemma Neutral.obeys_bind (h : Neutral pre x g)
    (hf : ∀ a, Obeys pre (f a) g Q) : Obeys pre (x >>= f) g Q := Prog.obeys_bind.mpr (h.obeys _ hf)

lemma neutral_ite {c : Prop} [Decidable c] (hx : c → Neutral pre x g)
    (hy : ¬c → Neutral pre y g) : Neutral pre (if c then x else y) g := by
  split
  · exact hx ‹_›
  · exact hy ‹_›

lemma neutral_loop (h : ∀ k, Neutral pre (body k) g) (i n : Nat) :
    Neutral pre (loop body i n) g := by
  induction n generalizing i with
  | zero => exact neutral_pure
  | succ n ih => exact (h i).bind fun _ => ih (i + 1)

lemma neutral_when (h : Neutral pre y g) : Neutral pre (when b y) g :=
  neutral_ite (fun _ => h) fun _ => neutral_pure

end Obeys

end Prog

end Lib
