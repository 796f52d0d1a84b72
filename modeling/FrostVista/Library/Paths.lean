import Mathlib.Data.List.Basic
import Mathlib.Data.List.Flatten
import Mathlib.Data.List.Induction
import Mathlib.Data.List.TakeWhile

/-!
# Path names

A path name is a text with separators. Its components are the nonempty pieces between separators,
and resolving them one after the other from a directory gives a stack of names: one component means
"here", one means "up", every other one is a name. The canonical text of a stack writes one
separator before each name.
-/
namespace Lib.Paths

open List

/-- The separator and the two components with a meaning. -/
structure Marks (α : Type) where
  sep : α
  here : List α
  up : List α

variable {α : Type} [DecidableEq α] (k : Marks α)

namespace Marks

/-- The nonempty pieces between separators. -/
def components (s : List α) : List (List α) := (s.splitOn k.sep).filter (· ≠ [])

def step (dir : List (List α)) (e : List α) : List (List α) :=
  if e = k.here then dir else if e = k.up then dir.dropLast else dir ++ [e]

/-- The directory reached from `dir` along the components. -/
def resolve (dir es : List (List α)) : List (List α) := es.foldl k.step dir

def render (dir : List (List α)) : List α :=
  if dir = [] then [k.sep] else dir.flatMap (k.sep :: ·)

/-- The canonical text of an absolute path. -/
def normal (s : List α) : List α := k.render (k.resolve [] (k.components s))

/-- A component that is neither of the two with a meaning. -/
structure IsName (e : List α) : Prop where
  ne_nil : e ≠ []
  sep_notMem : k.sep ∉ e
  ne_here : e ≠ k.here
  ne_up : e ≠ k.up

def Names (dir : List (List α)) : Prop := ∀ e ∈ dir, k.IsName e

variable {k} {a b s e : List α} {dir es es' : List (List α)}

@[simp] lemma components_nil : k.components [] = [] := by
  simp [components]

lemma components_append (a b : List α) :
    k.components (a ++ k.sep :: b) = k.components a ++ k.components b := by
  simp only [components, splitOn, ← filter_append]
  rw [splitOnP_append_cons a b (by simp)]

@[simp] lemma components_cons_sep (s : List α) : k.components (k.sep :: s) = k.components s := by
  simpa using components_append (k := k) [] s

lemma components_of_notMem (hs : k.sep ∉ e) (he : e ≠ []) : k.components e = [e] := by
  simp [components, splitOn_eq_singleton hs, he]

/-- A separator before each piece gives the text back, after one more separator. -/
lemma flatMap_splitOn (s : List α) : (s.splitOn k.sep).flatMap (k.sep :: ·) = k.sep :: s := by
  have hne := splitOn_ne_nil k.sep s
  calc (s.splitOn k.sep).flatMap (k.sep :: ·)
      = k.sep :: [k.sep].intercalate (s.splitOn k.sep) := by
        generalize s.splitOn k.sep = l at hne
        induction l with
        | nil => exact absurd rfl hne
        | cons a l ih => cases l <;> simp_all [intercalate]
    _ = k.sep :: s := by rw [intercalate_splitOn]

lemma length_components (s : List α) :
    ((k.components s).flatMap (k.sep :: ·)).length ≤ s.length + 1 := by
  calc ((k.components s).flatMap (k.sep :: ·)).length
      ≤ ((s.splitOn k.sep).flatMap (k.sep :: ·)).length := (filter_sublist.flatMap _).length_le
    _ = s.length + 1 := by rw [flatMap_splitOn, length_cons]

lemma components_dropWhile (s : List α) :
    k.components (s.dropWhile (· = k.sep)) = k.components s := by
  induction s with
  | nil => rfl
  | cons x s ih =>
    by_cases hx : x = k.sep
    · subst hx
      simpa using ih
    · simp [hx]

lemma sep_notMem_takeWhile (s : List α) : k.sep ∉ s.takeWhile (· ≠ k.sep) := fun hm => by
  simpa using mem_takeWhile_imp hm

lemma takeWhile_ne_nil (hs : s ≠ []) (hx : s.head? ≠ some k.sep) :
    s.takeWhile (· ≠ k.sep) ≠ [] := by
  obtain ⟨x, s, rfl⟩ := exists_cons_of_ne_nil hs
  have hne : x ≠ k.sep := by simpa using hx
  simp [hne]

lemma head_dropWhile (hs : s.dropWhile (· ≠ k.sep) ≠ []) :
    (s.dropWhile (· ≠ k.sep)).head? = some k.sep := by
  obtain ⟨y, t, hr⟩ := exists_cons_of_ne_nil hs
  have hy := head?_dropWhile_not (· ≠ k.sep) s
  rw [hr] at hy ⊢
  simpa using hy

lemma head_skip (s : List α) : (s.dropWhile (· = k.sep)).head? ≠ some k.sep := by
  intro hc
  have := head?_dropWhile_not (· = k.sep) s
  rw [hc] at this
  simp at this

lemma components_eq_cons (hs : s ≠ []) (hx : s.head? ≠ some k.sep) :
    k.components s = s.takeWhile (· ≠ k.sep) :: k.components (s.dropWhile (· ≠ k.sep)) := by
  have hsep := sep_notMem_takeWhile (k := k) s
  have hpos := takeWhile_ne_nil hs hx
  have hall := takeWhile_append_dropWhile (p := (· ≠ k.sep)) (l := s)
  by_cases hr : s.dropWhile (· ≠ k.sep) = []
  · rw [hr, append_nil] at hall
    rw [hr, components_nil, ← components_of_notMem hsep hpos, hall]
  · obtain ⟨y, t, ht⟩ := exists_cons_of_ne_nil hr
    have hy := head_dropWhile hr
    rw [ht] at hy
    obtain rfl : y = k.sep := by simpa using hy
    rw [ht] at hall ⊢
    calc k.components s
        = k.components (s.takeWhile (· ≠ k.sep)) ++ k.components t := by
          rw [← components_append, hall]
      _ = s.takeWhile (· ≠ k.sep) :: k.components (k.sep :: t) := by
          rw [components_of_notMem hsep hpos, components_cons_sep]
          rfl

lemma resolve_append : k.resolve dir (es ++ es') = k.resolve (k.resolve dir es) es' :=
  foldl_append ..

lemma resolve_names (h : k.Names es) : k.resolve dir es = dir ++ es := by
  induction es generalizing dir with
  | nil => simp [resolve]
  | cons e es ih =>
    have he := h e mem_cons_self
    have hes : k.Names es := fun x hx => h x (mem_cons_of_mem e hx)
    have hstep : k.step dir e = dir ++ [e] := by simp [step, he.ne_here, he.ne_up]
    rw [show k.resolve dir (e :: es) = k.resolve (k.step dir e) es from rfl, ih hes, hstep]
    simp

/-- Without a component that leads up, the names are put behind the directory. -/
lemma resolve_of_up_notMem (h : k.up ∉ es) :
    k.resolve dir es = dir ++ es.filter (· ≠ k.here) := by
  induction es generalizing dir with
  | nil => simp [resolve]
  | cons e es ih =>
    obtain ⟨hne, hup⟩ : k.up ≠ e ∧ k.up ∉ es := by simpa using h
    change k.resolve (k.step dir e) es = _
    rw [ih hup]
    by_cases he : e = k.here <;> simp [step, he, Ne.symm hne]

lemma Names.step (h : k.Names dir) (he : e ≠ []) (hs : k.sep ∉ e) : k.Names (k.step dir e) := by
  unfold Marks.step
  split
  · exact h
  split
  · exact fun x hx => h x (dropLast_subset dir hx)
  · intro x hx
    rcases mem_append.mp hx with hx | hx
    · exact h x hx
    · obtain rfl : x = e := by simpa using hx
      exact ⟨he, hs, by assumption, by assumption⟩

omit [DecidableEq α] in
lemma render_append (dir : List (List α)) (e : List α) :
    k.render (dir ++ [e]) = if dir = [] then k.sep :: e else k.render dir ++ k.sep :: e := by
  by_cases h : dir = [] <;> simp [render, h]

lemma components_render (h : k.Names dir) : k.components (k.render dir) = dir := by
  induction dir using reverseRecOn with
  | nil => simp [render]
  | append_singleton dir e ih =>
    have hdir : k.Names dir := fun x hx => h x (mem_append_left _ hx)
    have he := h e (mem_append_right _ (mem_singleton_self e))
    rw [render_append]
    split
    · rename_i hnil
      rw [components_cons_sep, components_of_notMem he.sep_notMem he.ne_nil, hnil]
      rfl
    · rw [components_append, ih hdir, components_of_notMem he.sep_notMem he.ne_nil]

lemma of_mem_components (he : e ∈ k.components s) : e ≠ [] ∧ k.sep ∉ e := by
  induction hn : s.length using Nat.strong_induction_on generalizing s with
  | _ n ih =>
    cases s with
    | nil => simp at he
    | cons x s =>
      by_cases hx : x = k.sep
      · subst hx
        rw [components_cons_sep] at he
        exact ih s.length (by simp at hn; omega) he rfl
      · have hne : (x :: s).head? ≠ some k.sep := by simpa using hx
        rw [components_eq_cons (by simp) hne, mem_cons] at he
        rcases he with rfl | he
        · exact ⟨takeWhile_ne_nil (by simp) hne, sep_notMem_takeWhile _⟩
        · refine ih _ ?_ he rfl
          rw [dropWhile_cons_of_pos (by simpa using hx), ← hn]
          exact Nat.lt_succ_of_le (dropWhile_suffix _).length_le

/-- Where a text is cut, its components stay whole up to the one the cut falls into. -/
lemma components_take (s : List α) (n : Nat) : ∃ whole lost, k.components s = whole ++ lost ∧
    (k.components (s.take n) = whole ∨ ∃ e e' rest, e ≠ [] ∧ lost = (e ++ e') :: rest ∧
      k.components (s.take n) = whole ++ [e]) := by
  induction hl : s.length using Nat.strong_induction_on generalizing s n with
  | _ l ih =>
    rcases n with _ | n
    · exact ⟨[], k.components s, rfl, .inl (by simp)⟩
    cases s with
    | nil => exact ⟨[], [], rfl, .inl rfl⟩
    | cons x s =>
      by_cases hx : x = k.sep
      · subst hx
        rw [take_succ_cons, components_cons_sep, components_cons_sep]
        exact ih s.length (by simp at hl; omega) s n rfl
      have hcons := components_eq_cons (k := k) (s := x :: s) (by simp) (by simpa using hx)
      have hall := takeWhile_append_dropWhile (p := (· ≠ k.sep)) (l := x :: s)
      have hsep := sep_notMem_takeWhile (k := k) (x :: s)
      have hpos : (x :: s).takeWhile (· ≠ k.sep) ≠ [] :=
        takeWhile_ne_nil (by simp) (by simpa using hx)
      have hhead := head_dropWhile (k := k) (s := x :: s)
      rw [hcons]
      generalize (x :: s).takeWhile (· ≠ k.sep) = e at *
      generalize (x :: s).dropWhile (· ≠ k.sep) = r at *
      rw [← hall, take_append]
      rw [← hall, length_append] at hl
      have hlen := length_pos_iff.mpr hpos
      by_cases hn : n + 1 ≤ e.length
      · -- The cut falls into the first component.
        have hne : e.take (n + 1) ≠ [] := by simp [hpos]
        refine ⟨[], e :: k.components r, rfl,
          .inr ⟨e.take (n + 1), e.drop (n + 1), k.components r, hne, ?_, ?_⟩⟩
        · rw [take_append_drop]
        · rw [Nat.sub_eq_zero_of_le hn, take_zero, append_nil, nil_append,
            components_of_notMem (fun h => hsep (mem_of_mem_take h)) hne]
      · rw [take_of_length_le (by omega)]
        obtain ⟨m, hm⟩ : ∃ m, n + 1 - e.length = m + 1 := ⟨n - e.length, by omega⟩
        rw [hm]
        cases r with
        | nil => exact ⟨[e], [], by simp, .inl (by simp [components_of_notMem hsep hpos])⟩
        | cons y t =>
          obtain rfl : y = k.sep := by simpa using hhead (by simp)
          obtain ⟨whole, lost, hwhole, hcut⟩ := ih t.length (by simp at hl; omega) t m rfl
          rw [components_cons_sep, take_succ_cons, components_append,
            components_of_notMem hsep hpos, hwhole]
          refine ⟨e :: whole, lost, rfl, hcut.imp (by simp_all) ?_⟩
          rintro ⟨a, b, rest, hne, hlost, htake⟩
          exact ⟨a, b, rest, hne, hlost, by simp [htake]⟩

lemma Names.resolve (h : k.Names dir) (hes : ∀ e ∈ es, e ≠ [] ∧ k.sep ∉ e) :
    k.Names (k.resolve dir es) := by
  induction es generalizing dir with
  | nil => exact h
  | cons e es ih =>
    obtain ⟨hne, hsep⟩ := hes e mem_cons_self
    exact ih (h.step hne hsep) fun e' he' => hes e' (mem_cons_of_mem e he')

section Tree

variable {β : Type} (child : β → List α → Option β) (root : β)

/-- The node reached from `o` along the components. -/
def follow (child : β → List α → Option β) : β → List (List α) → Option β
  | o, [] => some o
  | o, e :: es => (child o e).bind fun o' => follow child o' es

variable (k) in
/-- Along the components every name is found, "here" leads to the node itself, and "up" to the node
where the last name that is left was looked up; `anc` are these nodes, the nearest one first. -/
def Retraces : List β → β → List (List α) → Prop
  | _, _, [] => True
  | anc, o, e :: es =>
    if e = k.here then child o e = some o ∧ Retraces anc o es
    else if e = k.up then
      child o e = some (anc.headD o) ∧ Retraces anc.tail (anc.headD o) es
    else ∃ o', child o e = some o' ∧ Retraces (o :: anc) o' es

variable (k) in
/-- The names `dir` lead from the root to `o`, through the nodes `anc`. -/
inductive Reaches : List (List α) → List β → β → Prop where
  | root : Reaches [] [] root
  | name {dir : List (List α)} {anc : List β} {o o' : β} {e : List α} :
      Reaches dir anc o → e ≠ k.here → e ≠ k.up → child o e = some o' →
      Reaches (dir ++ [e]) (o :: anc) o'

variable {child root} {anc : List β} {o o' : β}

omit [DecidableEq α] in
lemma follow_append : follow child o (es ++ es') =
    (follow child o es).bind fun o' => follow child o' es' := by
  induction es generalizing o with
  | nil => rfl
  | cons e es ih =>
    simp only [cons_append, follow, ih]
    cases child o e <;> rfl

omit [DecidableEq α] in
lemma Reaches.follow (h : k.Reaches child root dir anc o) : follow child root dir = some o := by
  induction h with
  | root => rfl
  | name _ _ _ hchild ih => simp [follow_append, ih, Marks.follow, hchild]

omit [DecidableEq α] in
lemma Reaches.parent (h : k.Reaches child root dir anc o) :
    k.Reaches child root dir.dropLast anc.tail (anc.headD o) := by
  cases h with
  | root => exact .root
  | name h _ _ _ => simpa using h

lemma Reaches.resolve (h : k.Reaches child root dir anc o) (hr : k.Retraces child anc o es) :
    ∃ anc' o', k.Reaches child root (k.resolve dir es) anc' o' ∧ Marks.follow child o es =
      some o' := by
  induction es generalizing dir anc o with
  | nil => exact ⟨anc, o, h, rfl⟩
  | cons e es ih =>
    simp only [Retraces] at hr
    simp only [Marks.resolve, foldl_cons, Marks.step, Marks.follow]
    split at hr
    · rename_i he
      rw [if_pos he, hr.1]
      exact ih h hr.2
    · rename_i hhere
      rw [if_neg hhere]
      split at hr
      · rename_i he
        rw [if_pos he, hr.1]
        exact ih h.parent hr.2
      · rename_i hup
        obtain ⟨o', hchild, hr⟩ := hr
        rw [if_neg hup, hchild]
        exact ih (h.name hhere hup hchild) hr

end Tree

end Marks

end Lib.Paths
