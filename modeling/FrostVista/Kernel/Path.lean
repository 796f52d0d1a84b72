import FrostVista.Kernel.Process
import FrostVista.Library.Paths
import FrostVista.Library.Run

/-!
# Absolute paths

`vfs_make_absolute_path` of `kernel/fs/vfs.c` joins the working directory and a path in a buffer of
`PATH_MAX` bytes and normalises the result in a second one. A string is the list of its bytes
without the terminating zero. The join stops without notice when the buffer is full, so the result
is the canonical path of a text that may have been cut.
-/
namespace FrostVista.Kernel

open Lib Lib.Paths List Marks Function

def pathMax : Nat := 128

def slash : Byte := 0x2f#8

/-- The separator and the components `.` and `..`. -/
def marks : Marks Byte := ⟨slash, [0x2e#8], [0x2e#8, 0x2e#8]⟩

def pathElemEq : List Byte → List Byte → Bool
  | [], t => t.isEmpty
  | _ :: _, [] => false
  | a :: s, b :: t => a == b && pathElemEq s t

/-- The loops that copy bytes while `i < PATH_MAX - 1`. -/
def copyBounded (out : List Byte) : List Byte → List Byte
  | [] => out
  | b :: bs => if out.length < pathMax - 1 then copyBounded (out ++ [b]) bs else out

def appendPathElem (out elem : List Byte) : List Byte :=
  let out := if 1 < out.length ∧ out.length < pathMax - 1 then out ++ [slash] else out
  copyBounded out elem

/-- The loop `while (*out_len > 1 && out[*out_len - 1] != '/')`. -/
def trimElem : Nat → List Byte → List Byte
  | 0, out => out
  | n + 1, out =>
    if 1 < out.length ∧ out.getLast? ≠ some slash then trimElem n out.dropLast else out

def popPathElem (out : List Byte) : List Byte :=
  if out.length ≤ 1 then [slash]
  else
    let out := trimElem out.length out
    if 1 < out.length then out.dropLast else out

/-- The loop of `vfs_normalize_path`; every round consumes at least one byte of the path. -/
def normalizeLoop : Nat → List Byte → List Byte → List Byte
  | 0, _, out => out
  | n + 1, path, out =>
    let path := path.dropWhile (· = slash)
    if path = [] then out
    else
      let elem := path.takeWhile (· ≠ slash)
      let path := path.dropWhile (· ≠ slash)
      if pathElemEq elem [0x2e#8] then normalizeLoop n path out
      else if pathElemEq elem [0x2e#8, 0x2e#8] then normalizeLoop n path (popPathElem out)
      else normalizeLoop n path (appendPathElem out elem)

def vfsNormalizePath (path : List Byte) : List Byte :=
  (normalizeLoop path.length path [slash]).take (pathMax - 1)

def vfsMakeAbsolutePath (cwd path : List Byte) : List Byte :=
  if path.head? = some slash then vfsNormalizePath (path.take (pathMax - 1))
  else
    let raw := cwd.take (pathMax - 1)
    let raw := if 1 < raw.length ∧ raw.length < pathMax - 1 then raw ++ [slash] else raw
    vfsNormalizePath (copyBounded raw path)

/-! ## The buffer operations -/

lemma pathElemEq_iff (s t : List Byte) : pathElemEq s t = true ↔ s = t := by
  fun_induction pathElemEq s t <;> simp_all

lemma copyBounded_eq (out bs : List Byte) :
    copyBounded out bs = out ++ bs.take (pathMax - 1 - out.length) := by
  fun_induction copyBounded out bs with
  | case1 => simp
  | case2 out b bs h ih =>
    rw [ih, show pathMax - 1 - out.length = pathMax - 1 - (out ++ [b]).length + 1 by
      simp only [length_append, length_singleton]; omega]
    simp
  | case3 out b bs h => simp [show pathMax - 1 - out.length = 0 by omega]

/-- The bytes of `render` without the root. -/
def weight (dir : List (List Byte)) : Nat := (dir.flatMap (slash :: ·)).length

@[simp] lemma weight_nil : weight [] = 0 := rfl

@[simp] lemma weight_append (dir : List (List Byte)) (e : List Byte) :
    weight (dir ++ [e]) = weight dir + (e.length + 1) := by
  simp [weight]

lemma weight_dropLast_le (dir : List (List Byte)) : weight dir.dropLast ≤ weight dir := by
  induction dir using reverseRecOn with
  | nil => simp
  | append_singleton dir e => simp

lemma length_render (dir : List (List Byte)) :
    (marks.render dir).length = if dir = [] then 1 else weight dir := by
  unfold render
  split <;> rfl

variable {dir : List (List Byte)} {e path out cwd : List Byte} {n : Nat}

lemma one_lt_weight (h : marks.Names dir) (hd : dir ≠ []) : 1 < weight dir := by
  obtain ⟨e, he⟩ := exists_mem_of_ne_nil dir hd
  have hpos := length_pos_iff.mpr (h e he).ne_nil
  induction dir using reverseRecOn with
  | nil => exact absurd rfl hd
  | append_singleton dir x _ =>
    have hx := length_pos_iff.mpr (h x (by simp)).ne_nil
    rw [weight_append]
    omega

lemma appendPathElem_render (h : marks.Names dir) (hw : weight dir + (e.length + 1) ≤ 127) :
    appendPathElem (marks.render dir) e = marks.render (dir ++ [e]) := by
  have hlen := length_render dir
  rw [render_append, appendPathElem, copyBounded_eq]
  by_cases hd : dir = []
  · subst hd
    rw [if_pos rfl] at hlen ⊢
    simp only [hlen, pathMax]
    rw [if_neg (by omega), hlen, take_of_length_le (by omega)]
    rfl
  · have h1 := one_lt_weight h hd
    rw [if_neg hd] at hlen ⊢
    simp only [hlen, pathMax]
    rw [if_pos (by omega), length_append, hlen, take_of_length_le]
    · simp [marks]
    · simp only [length_singleton]
      omega

lemma trimElem_eq (hs : slash ∉ e) (pre : List Byte)
    (hn : e.length ≤ n) : trimElem n (pre ++ slash :: e) = pre ++ [slash] := by
  induction e using reverseRecOn generalizing n with
  | nil => cases n <;> simp [trimElem]
  | append_singleton e x ih =>
    have hx : x ≠ slash := fun h => hs (by simp [h])
    obtain ⟨n, rfl⟩ : ∃ k, n = k + 1 := ⟨n - 1, by simp at hn; omega⟩
    have hsplit : pre ++ slash :: (e ++ [x]) = (pre ++ slash :: e) ++ [x] := by simp
    have hcond : 1 < ((pre ++ slash :: e) ++ [x]).length ∧
        ((pre ++ slash :: e) ++ [x]).getLast? ≠ some slash := by
      refine ⟨by simp; omega, ?_⟩
      rw [getLast?_concat]
      simpa using hx
    rw [hsplit, trimElem, if_pos hcond, dropLast_concat]
    exact ih (fun h => hs (by simp [h])) (by simpa using hn)

lemma popPathElem_render (h : marks.Names dir) :
    popPathElem (marks.render dir) = marks.render dir.dropLast := by
  induction dir using reverseRecOn with
  | nil => rfl
  | append_singleton dir e _ =>
    have he := h e (by simp)
    have hpos := length_pos_iff.mpr he.ne_nil
    have hdir : marks.Names dir := fun x hx => h x (by simp [hx])
    rw [dropLast_concat, render_append, popPathElem]
    by_cases hd : dir = []
    · subst hd
      have htrim := trimElem_eq he.sep_notMem [] (n := (slash :: e).length) (by simp)
      rw [nil_append, nil_append] at htrim
      rw [if_pos rfl, show marks.sep = slash from rfl, htrim]
      simp [render, marks]
    · have hlen := length_render dir
      have h1 := one_lt_weight hdir hd
      have htrim := trimElem_eq he.sep_notMem (marks.render dir)
        (n := (marks.render dir ++ slash :: e).length) (by simp; omega)
      rw [if_neg hd] at hlen ⊢
      rw [show marks.sep = slash from rfl, htrim, if_neg (by simp [hlen]; omega),
        if_pos (by simp [hlen]; omega), dropLast_concat]

/-! ## Normalisation -/

/-- The loop resolves the components of the rest of the path, as long as the buffer is large enough
for what has been written and what is left. -/
lemma normalizeLoop_eq
    (h : marks.Names dir) (hn : path.length ≤ n) (hp : path ≠ [] → path.head? = some slash)
    (hw : weight dir + path.length ≤ 127) : normalizeLoop n path (marks.render dir) =
      marks.render (marks.resolve dir (marks.components path)) := by
  induction n generalizing path dir with
  | zero =>
    obtain rfl : path = [] := length_eq_zero_iff.mp (by omega)
    rfl
  | succ n ih =>
    have hcomp : marks.components (path.dropWhile (· = slash)) = marks.components path :=
      components_dropWhile path
    rw [normalizeLoop, ← hcomp]
    by_cases hnil : path.dropWhile (· = slash) = []
    · rw [if_pos hnil, hnil]
      rfl
    have hhead : (path.dropWhile (· = slash)).head? ≠ some marks.sep :=
      head_skip (k := marks) path
    -- The path starts with a slash, so at least one byte was skipped.
    have hlen : (path.dropWhile (· = slash)).length + 1 ≤ path.length := by
      cases path with
      | nil => exact absurd rfl hnil
      | cons b rest =>
        obtain rfl : b = slash := by simpa using hp (by simp)
        have := (dropWhile_suffix (· = slash) (l := rest)).length_le
        simpa using this
    generalize path.dropWhile (· = slash) = q at *
    rw [if_neg hnil, components_eq_cons hnil hhead]
    have hsum : (q.takeWhile (· ≠ slash)).length + (q.dropWhile (· ≠ slash)).length = q.length := by
      rw [← length_append, takeWhile_append_dropWhile]
    have helem : q.takeWhile (· ≠ slash) ≠ [] := takeWhile_ne_nil hnil hhead
    have hsep : slash ∉ q.takeWhile (· ≠ slash) := sep_notMem_takeWhile (k := marks) q
    have hrest : q.dropWhile (· ≠ slash) ≠ [] → (q.dropWhile (· ≠ slash)).head? = some slash :=
      head_dropWhile (k := marks)
    have hnames := h.step helem hsep
    change _ = marks.render (marks.resolve (marks.step dir (q.takeWhile (· ≠ slash)))
      (marks.components (q.dropWhile (· ≠ slash))))
    generalize q.takeWhile (· ≠ slash) = e at *
    generalize q.dropWhile (· ≠ slash) = rest at *
    simp only [pathElemEq_iff]
    by_cases hdot : e = [0x2e#8]
    · rw [if_pos hdot, show marks.step dir e = dir from if_pos hdot]
      exact ih h (by omega) hrest (by omega)
    by_cases hup : e = [0x2e#8, 0x2e#8]
    · have hstep : marks.step dir e = dir.dropLast := (if_neg hdot).trans (if_pos hup)
      have hle := weight_dropLast_le dir
      rw [hstep] at hnames ⊢
      rw [if_neg hdot, if_pos hup, popPathElem_render h]
      exact ih hnames (by omega) hrest (by omega)
    · have hstep : marks.step dir e = dir ++ [e] := (if_neg hdot).trans (if_neg hup)
      have hweight := weight_append dir e
      rw [hstep] at hnames ⊢
      rw [if_neg hdot, if_neg hup, appendPathElem_render h (by omega)]
      exact ih hnames (by omega) hrest (by omega)

lemma length_trimElem_le (n : Nat) (out : List Byte) : (trimElem n out).length ≤ out.length := by
  fun_induction trimElem n out with
  | case1 => exact Nat.le_refl _
  | case2 n out h ih =>
    rw [length_dropLast] at ih
    omega
  | case3 => exact Nat.le_refl _

lemma length_popPathElem_le (h : out.length ≤ 127) : (popPathElem out).length ≤ 127 := by
  have := length_trimElem_le out.length out
  simp only [popPathElem]
  split
  · simp
  split
  · rw [length_dropLast]
    omega
  · omega

lemma length_appendPathElem_le (h : out.length ≤ 127) (e : List Byte) :
    (appendPathElem out e).length ≤ 127 := by
  rw [appendPathElem, copyBounded_eq, length_append, length_take]
  by_cases hc : 1 < out.length ∧ out.length < pathMax - 1
  · rw [if_pos hc, length_append, length_singleton]
    simp only [pathMax] at hc ⊢
    omega
  · rw [if_neg hc]
    simp only [pathMax]
    omega

lemma length_normalizeLoop_le (h : out.length ≤ 127) : (normalizeLoop n path out).length ≤ 127 := by
  induction n generalizing path out with
  | zero => exact h
  | succ n ih =>
    simp only [normalizeLoop]
    split
    · exact h
    split
    · exact ih h
    split
    · exact ih (length_popPathElem_le h)
    · exact ih (length_appendPathElem_le h _)

lemma vfsNormalizePath_eq (hs : path.head? = some slash)
    (hl : path.length ≤ 127) : vfsNormalizePath path = marks.normal path := by
  have hlen : (normalizeLoop path.length path [slash]).length ≤ pathMax - 1 :=
    length_normalizeLoop_le (by simp)
  rw [vfsNormalizePath, take_of_length_le hlen]
  have hnames : marks.Names [] := by simp [Marks.Names]
  exact normalizeLoop_eq hnames (Nat.le_refl _) (fun _ => hs) (by simpa using hl)

lemma weight_resolve (dir es : List (List Byte)) :
    weight (marks.resolve dir es) ≤ weight dir + weight es := by
  induction es generalizing dir with
  | nil => exact Nat.le_refl _
  | cons e es ih =>
    have hstep : weight (marks.step dir e) ≤ weight dir + (e.length + 1) := by
      have := weight_dropLast_le dir
      unfold Marks.step
      split_ifs <;> simp
      omega
    have hcons : weight (e :: es) = e.length + 1 + weight es := by
      simp [weight]
      omega
    have hrest : weight (marks.resolve dir (e :: es)) ≤ _ := ih (marks.step dir e)
    omega

lemma length_normal_le (hs : path.head? = some slash) :
    (marks.normal path).length ≤ path.length := by
  obtain ⟨s, rfl⟩ : ∃ s, path = slash :: s := by
    cases path <;> simp_all
  have hlen : weight (marks.components (slash :: s)) ≤ s.length + 1 := by
    rw [show marks.components (slash :: s) = _ from components_cons_sep s]
    exact length_components (k := marks) s
  have hle := weight_resolve [] (marks.components (slash :: s))
  rw [normal, length_render]
  split
  · simp
  · simp at hle ⊢
    omega

/-! ## Working directories -/

/-- The text of a directory: its names, each after a slash. -/
def Canonical (path : List Byte) : Prop := ∃ dir, marks.Names dir ∧ path = marks.render dir

/-- The canonical path of `path` seen from the directory `cwd`. -/
def absolutePath (cwd path : List Byte) : List Byte :=
  let dir := if path.head? = some slash then [] else marks.components cwd
  marks.render (marks.resolve dir (marks.components path))

/-- The text of `path` below the directory `cwd`, in a buffer without limit. -/
def join (cwd path : List Byte) : List Byte :=
  cwd ++ (if 1 < cwd.length then slash :: path else path)

lemma Canonical.head (h : Canonical cwd) : cwd.head? = some slash := by
  obtain ⟨dir, -, rfl⟩ := h
  unfold render
  split
  · rfl
  · obtain ⟨e, dir, rfl⟩ := exists_cons_of_ne_nil ‹dir ≠ []›
    rfl

lemma normal_join (h : Canonical cwd) : marks.normal (join cwd path) =
      marks.render (marks.resolve (marks.components cwd) (marks.components path)) := by
  obtain ⟨dir, hdir, rfl⟩ := h
  have hcomp : marks.components (join (marks.render dir) path) = dir ++ marks.components path := by
    have hlen := length_render dir
    by_cases hd : dir = []
    · subst hd
      exact components_cons_sep (k := marks) path
    · have h1 := one_lt_weight hdir hd
      rw [if_neg hd] at hlen
      rw [join, if_pos (by omega)]
      exact (components_append (k := marks) _ _).trans
        (by rw [components_render hdir])
  rw [normal, hcomp, resolve_append, resolve_names hdir, components_render hdir, nil_append]

/-- The bytes of a relative path for which the buffer has room behind `cwd` and the slash. -/
def kept (cwd path : List Byte) : List Byte :=
  path.take (if 1 < cwd.length then 126 - cwd.length else 126)

/-- The text in the buffer names what `cwd` followed by the kept bytes names. A `cwd` of 127 bytes
leaves no room for the slash either. -/
lemma normal_copyBounded (hpos : 0 < cwd.length) (hcl : cwd.length < 128) (path : List Byte) :
    marks.normal (copyBounded
      (if 1 < cwd.length ∧ cwd.length < 127 then cwd ++ [slash] else cwd) path) =
      marks.normal (join cwd (kept cwd path)) := by
  rw [copyBounded_eq, join, kept]
  simp only [pathMax]
  by_cases h1 : 1 < cwd.length
  · by_cases h2 : cwd.length < 127
    · rw [if_pos ⟨h1, h2⟩, if_pos h1, if_pos h1, append_assoc, length_append, length_singleton,
        show 128 - 1 - (cwd.length + 1) = 126 - cwd.length by omega]
      rfl
    · have hcomp := components_append (k := marks) cwd []
      rw [if_neg (by omega), if_pos h1, if_pos h1, show 128 - 1 - cwd.length = 0 by omega,
        show 126 - cwd.length = 0 by omega, take_zero, append_nil, normal, normal,
        show cwd ++ [slash] = cwd ++ marks.sep :: [] from rfl, hcomp, components_nil, append_nil]
  · rw [if_neg (by omega), if_neg h1, if_neg h1, show cwd.length = 1 by omega]

lemma vfsMakeAbsolutePath_eq (hc : Canonical cwd) (hcl : cwd.length < 128)
    (hpl : path.length < 128) : vfsMakeAbsolutePath cwd path =
      if path.head? = some slash then marks.normal path
      else marks.normal (join cwd (kept cwd path)) := by
  unfold vfsMakeAbsolutePath
  split
  · rename_i hs
    rw [show pathMax - 1 = 127 from rfl, take_of_length_le (by omega)]
    exact vfsNormalizePath_eq hs (by omega)
  · have hpos : 0 < cwd.length := length_pos_iff.mpr fun h => by simpa [h] using hc.head
    simp only [pathMax, take_of_length_le (l := cwd) (i := 128 - 1) (by omega)]
    rw [show 128 - 1 = 127 from rfl, ← normal_copyBounded hpos hcl, copyBounded_eq]
    apply vfsNormalizePath_eq
    · have := hc.head
      cases cwd with
      | nil => cases hpos
      | cons b cwd => split <;> simpa using this
    · rw [length_append, length_take]
      simp only [pathMax]
      split <;> simp <;> omega

/-- What is cut off a relative path are slashes and whole components `.`, if anything. -/
def OnlyDotsLost (cwd path : List Byte) : Prop :=
  ∃ dots, marks.components path = marks.components (kept cwd path) ++ dots ∧
    ∀ e ∈ dots, e = marks.here

/-- If the directory reached is the same without the bytes that are cut off, and the cut takes no
component `..` away, then only components `.` are lost. -/
lemma onlyDotsLost_of_resolve (dir : List (List Byte))
    (hup : marks.up ∉ (marks.components path).drop ((marks.components (kept cwd path)).length - 1))
    (h : marks.resolve dir (marks.components (kept cwd path)) =
      marks.resolve dir (marks.components path)) : OnlyDotsLost cwd path := by
  obtain ⟨whole, lost, hpath, hkept | ⟨e, e', rest, hne, rfl, hkept⟩⟩ :=
    components_take (k := marks) path (if 1 < cwd.length then 126 - cwd.length else 126)
  · refine ⟨lost, by rw [hpath, kept, hkept], ?_⟩
    have hlost : marks.up ∉ lost := fun hm => hup <| by
      rw [hpath, kept, hkept, drop_append_of_le_length (by omega)]
      exact mem_append_right _ hm
    rw [kept, hkept, hpath, resolve_append, resolve_of_up_notMem hlost] at h
    simpa [filter_eq_nil_iff] using h
  · rw [kept, hkept, hpath, length_append, length_singleton, Nat.add_sub_cancel, drop_left] at hup
    rw [kept, hkept, hpath, resolve_append, resolve_append, resolve_of_up_notMem hup] at h
    change marks.step (marks.resolve dir whole) e = _ at h
    -- The component that is cut was `.`, became `..` by the cut, or is a name.
    by_cases hhere : e = marks.here
    · rw [hhere, step, if_pos rfl, self_eq_append_right, filter_eq_nil_iff] at h
      have hrest : ∀ a ∈ rest, a = marks.here := by
        simpa using fun a ha => h a (mem_cons_of_mem _ ha)
      have hnil : e' = [] := by simpa [hhere] using h _ mem_cons_self
      exact ⟨rest, by simp [kept, hkept, hpath, hnil], hrest⟩
    · have hcut : e ++ e' ≠ marks.here := by
        obtain ⟨b, e, rfl⟩ := exists_cons_of_ne_nil hne
        intro hc
        rw [cons_append, show marks.here = [0x2e#8] from rfl, cons.injEq, append_eq_nil_iff] at hc
        exact hhere (by rw [hc.1, hc.2.1]; rfl)
      rw [filter_cons_of_pos (by simpa using hcut), step, if_neg hhere] at h
      by_cases hdots : e = marks.up
      · have := congrArg length h
        rw [if_pos hdots, length_dropLast, length_append, length_cons] at this
        omega
      · rw [if_neg hdots, append_cancel_left_eq, cons.injEq, self_eq_append_right,
          eq_comm (a := []), filter_eq_nil_iff] at h
        exact ⟨rest, by simp [kept, hkept, hpath, h.1], by simpa using h.2⟩

/-- The result is the canonical path if the path is absolute or its join with the working directory
loses only components `.`; and only then, if no component from the last kept one on is `..`, which
could lead back to where the cut path ends. -/
theorem vfsMakeAbsolutePath_correct_iff {cwd path : List Byte} (hc : Canonical cwd)
    (hcl : cwd.length < 128) (hpl : path.length < 128) :
    (path.head? = some slash ∨ OnlyDotsLost cwd path →
      vfsMakeAbsolutePath cwd path = absolutePath cwd path) ∧
    (marks.up ∉ (marks.components path).drop ((marks.components (kept cwd path)).length - 1) →
      (vfsMakeAbsolutePath cwd path = absolutePath cwd path ↔
        path.head? = some slash ∨ OnlyDotsLost cwd path)) := by
  rw [vfsMakeAbsolutePath_eq hc hcl hpl, normal_join hc]
  by_cases hs : path.head? = some slash
  · simp [hs, absolutePath, Marks.normal]
  have habs : absolutePath cwd path =
      marks.render (marks.resolve (marks.components cwd) (marks.components path)) := by
    rw [absolutePath, if_neg hs]
  have hsame : OnlyDotsLost cwd path →
      marks.resolve (marks.components cwd) (marks.components (kept cwd path)) =
        marks.resolve (marks.components cwd) (marks.components path) := by
    rintro ⟨dots, hpath, hdots⟩
    have hup : marks.up ∉ dots := fun hm => absurd (hdots _ hm) (by decide)
    rw [hpath, resolve_append, resolve_of_up_notMem hup,
      filter_eq_nil_iff.mpr (by simpa using hdots), append_nil]
  rw [if_neg hs, habs]
  simp only [hs, false_or]
  refine ⟨fun h => by rw [hsame h], fun hup => ⟨fun h => ?_, fun h => by rw [hsame h]⟩⟩
  apply onlyDotsLost_of_resolve (marks.components cwd) hup
  have hnames : ∀ p, marks.Names (marks.resolve (marks.components cwd) (marks.components p)) :=
    fun p => by
      obtain ⟨dir, hdir, rfl⟩ := hc
      rw [components_render hdir]
      exact hdir.resolve fun _ he => of_mem_components he
  rw [← components_render (hnames (kept cwd path)), h, components_render (hnames path)]

/-- A directory name of 100 bytes and a path of 29 bytes: the last four, `/./.`, are lost. -/
theorem vfsMakeAbsolutePath_correct_iff_dots :
    vfsMakeAbsolutePath (slash :: replicate 100 0x61#8)
        (replicate 25 0x62#8 ++ [slash, 0x2e#8, slash, 0x2e#8]) =
      slash :: replicate 100 0x61#8 ++ slash :: replicate 25 0x62#8 := by
  have hc : Canonical (slash :: replicate 100 0x61#8) := by
    refine ⟨[replicate 100 0x61#8], fun e he => ?_, rfl⟩
    obtain rfl : e = replicate 100 0x61#8 := by simpa using he
    exact ⟨by decide, by decide, by decide, by decide⟩
  have hlost : OnlyDotsLost (slash :: replicate 100 0x61#8)
      (replicate 25 0x62#8 ++ [slash, 0x2e#8, slash, 0x2e#8]) :=
    ⟨[marks.here, marks.here], by decide +kernel, by simp⟩
  exact ((vfsMakeAbsolutePath_correct_iff hc (by decide) (by decide)).1 (.inr hlost)).trans
    (by decide +kernel)

/-- A directory name of 100 bytes and a path of 50 bytes: the last 25 bytes are lost. -/
theorem vfsMakeAbsolutePath_cuts :
    Canonical (slash :: replicate 100 0x61#8) ∧
    vfsMakeAbsolutePath (slash :: replicate 100 0x61#8) (replicate 50 0x62#8) =
      slash :: replicate 100 0x61#8 ++ slash :: replicate 25 0x62#8 ∧
    vfsMakeAbsolutePath (slash :: replicate 100 0x61#8) (replicate 50 0x62#8) ≠
      absolutePath (slash :: replicate 100 0x61#8) (replicate 50 0x62#8) := by
  refine ⟨⟨[replicate 100 0x61#8], fun e he => ?_, rfl⟩, by decide +kernel, by decide +kernel⟩
  obtain rfl : e = replicate 100 0x61#8 := by simpa using he
  exact ⟨by decide, by decide, by decide, by decide⟩

lemma canonical_normal (path : List Byte) : Canonical (marks.normal path) :=
  ⟨_, Names.resolve (by simp [Marks.Names]) fun _ he => of_mem_components he, rfl⟩

lemma Canonical.normal_eq (h : Canonical path) : marks.normal path = path := by
  obtain ⟨dir, hdir, rfl⟩ := h
  rw [normal, components_render hdir, resolve_names hdir, nil_append]

/-- `sys_chdir` with a path that has been fetched; `isDir` tells whether the lookup ends at a
directory. -/
def sysChdir (cwd path : List Byte) (isDir : Bool) : List Byte :=
  let fullpath := vfsMakeAbsolutePath cwd path
  if path ≠ [] ∧ (fullpath = [slash] ∨ isDir) then fullpath.take (pathMax - 1) else cwd

abbrev Cwds := Fin nproc → Option (List Byte)

/-- What is done to the working directories: by `alloc_process`, by the rest of `fork` and by
`chdir`. -/
inductive CwdAct where
  | alloc (p : Fin nproc)
  | fork (p child : Fin nproc)
  | chdir (p : Fin nproc) (path : List Byte) (isDir : Bool)

inductive CwdStep : Cwds → CwdAct → Cwds → Prop where
  | alloc (w p) : CwdStep w (.alloc p) (update w p (some [slash]))
  | fork {w p cwd} (child) : w p = some cwd → CwdStep w (.fork p child)
      (update w child (some cwd))
  | chdir {w p cwd path} (isDir) : w p = some cwd → path.length < pathMax →
      CwdStep w (.chdir p path isDir) (update w p (some (sysChdir cwd path isDir)))

lemma length_vfsMakeAbsolutePath_le (cwd path : List Byte) :
    (vfsMakeAbsolutePath cwd path).length ≤ pathMax - 1 := by
  unfold vfsMakeAbsolutePath vfsNormalizePath
  split <;> exact length_take_le ..

lemma sysChdir_canonical (hc : Canonical cwd) (hcl : cwd.length < pathMax)
    (hpl : path.length < pathMax) (isDir : Bool) : Canonical (sysChdir cwd path isDir) ∧
    (sysChdir cwd path isDir).length < pathMax := by
  have hfull : Canonical (vfsMakeAbsolutePath cwd path) := by
    rw [vfsMakeAbsolutePath_eq hc hcl hpl]
    split <;> exact canonical_normal _
  have hlen := length_vfsMakeAbsolutePath_le cwd path
  simp only [sysChdir]
  split
  · rw [take_of_length_le hlen]
    exact ⟨hfull, Nat.lt_succ_of_le hlen⟩
  · exact ⟨hc, hcl⟩

/-- Normalising an absolute path resolves its components from the root. The length of the result
stays an index of the buffer in every round, and no round writes behind it. -/
theorem vfsNormalizePath_canonical :
    (∀ path : List Byte, path.head? = some slash → path.length < pathMax →
      Canonical (vfsNormalizePath path) ∧
      vfsNormalizePath path = marks.render (marks.resolve [] (marks.components path)) ∧
      (vfsNormalizePath path).length ≤ path.length ∧
      (∀ n, (normalizeLoop n path [slash]).length < pathMax) ∧
      vfsNormalizePath (vfsNormalizePath path) = vfsNormalizePath path) ∧
    ∀ acts w, Run CwdStep (fun _ => none) acts w →
      ∀ p cwd, w p = some cwd → Canonical cwd ∧ cwd.length < pathMax := by
  refine ⟨fun path hs hl => ?_, fun acts w hr => ?_⟩
  · have hle := length_normal_le hs
    have hc := canonical_normal path
    have hindex : ∀ n, (normalizeLoop n path [slash]).length < pathMax := fun n =>
      Nat.lt_succ_of_le (length_normalizeLoop_le (by simp))
    rw [vfsNormalizePath_eq hs (Nat.le_of_lt_succ hl)]
    refine ⟨hc, rfl, hle, hindex, ?_⟩
    rw [vfsNormalizePath_eq hc.head (hle.trans (Nat.le_of_lt_succ hl)), hc.normal_eq]
  · refine hr.invariant (fun w => ∀ p cwd, w p = some cwd → Canonical cwd ∧ cwd.length < pathMax) ?_
      (by simp)
    intro w a w' h hs
    have hset : ∀ p cwd, Canonical cwd → cwd.length < pathMax →
      ∀ q c, update w p (some cwd) q = some c →
        Canonical c ∧ c.length < pathMax := by
      intro p cwd hc hl
      grind [update_apply]
    cases hs with
    | alloc p => exact hset p _ (canonical_normal []) (by decide)
    | fork child hp => exact hset child _ (h _ _ hp).1 (h _ _ hp).2
    | chdir isDir hp hl =>
      have hcwd := sysChdir_canonical (h _ _ hp).1 (h _ _ hp).2 hl isDir
      exact hset _ _ hcwd.1 hcwd.2

/-- A process goes to `/a/..//b` and forks. -/
theorem vfsNormalizePath_canonical_fork : ∃ acts w, Run CwdStep (fun _ => none) acts w ∧
    w ⟨1, by decide⟩ = some [slash, 0x62#8] ∧ Canonical [slash, 0x62#8] ∧
    (vfsNormalizePath [slash, slash]).length ≤ 2 := by
  have hrun : Run CwdStep (fun _ => none) [.alloc ⟨0, by decide⟩,
      .chdir ⟨0, by decide⟩ [slash, 0x61#8, slash, 0x2e#8, 0x2e#8, slash, slash, 0x62#8] true,
      .fork ⟨0, by decide⟩ ⟨1, by decide⟩] _ :=
    .cons (.alloc ..) <| .cons (.chdir _ rfl (by decide)) <| .cons (.fork _ rfl) (.nil _)
  have hchild := vfsNormalizePath_canonical.2 _ _ hrun ⟨1, by decide⟩ [slash, 0x62#8]
    (by decide +kernel)
  exact ⟨_, _,
    hrun, by decide +kernel, hchild.1, (vfsNormalizePath_canonical.1 _ rfl (by decide)).2.2.1⟩

end FrostVista.Kernel
