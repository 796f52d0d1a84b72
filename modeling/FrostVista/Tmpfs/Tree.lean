import FrostVista.Tmpfs.Store

/-!
# tmpfs: links and directory entries

The directory tree without the contents of the files. Every inode with a link is named by one entry,
is the root, or is linked from outside of tmpfs. A directory always has a link, a file has at most
one.
-/
namespace FrostVista.Tmpfs

open Function List
open Kernel.Ftable (NodeType)

open Kernel.Namei (Name)

/-- An inode without its file. -/
structure Header where
  type : NodeType
  nlinks : Nat
  ino : Nat
  children : List DirEntry

def Inode.header (n : Inode) : Header := ⟨n.type, n.nlinks, n.ino, n.children⟩

def Store.header (s : Store) (a : Nat) : Option Header := (s.node a).map Inode.header

/-- Some directory has an entry for the inode at `a`. -/
def Named (t : Nat → Option Header) (a : Nat) : Prop :=
  ∃ p d, t p = some d ∧ ∃ e ∈ d.children, e.inode = a

/-- The inodes of `ext` are linked from outside. -/
structure Tree (ext : Nat → Prop) (t : Nat → Option Header) : Prop where
  root : ∃ r, t rootAddr = some r ∧ r.type = .dir
  parent : ∀ p d e, t p = some d → e ∈ d.children → d.type = .dir
  child : ∀ p d e, t p = some d → e ∈ d.children →
    e.inode ≠ rootAddr ∧ ¬ext e.inode ∧ ∃ c, t e.inode = some c ∧ c.type = e.type ∧ c.nlinks ≠ 0
  nodup : ∀ p d, t p = some d → (d.children.map DirEntry.inode).Nodup
  unique : ∀ p d p' d' e e', t p = some d → t p' = some d' → e ∈ d.children → e' ∈ d'.children →
    e.inode = e'.inode → p = p'
  linked : ∀ a c, t a = some c → c.nlinks ≠ 0 → a = rootAddr ∨ ext a ∨ Named t a
  file : ∀ a c, t a = some c → c.type ≠ .dir → c.nlinks ≤ 1
  dir : ∀ a c, t a = some c → c.type = .dir → c.nlinks ≠ 0
  outer : ∀ a, ext a → a ≠ rootAddr ∧ ∃ c, t a = some c ∧ c.nlinks ≠ 0

namespace Tree

variable {ext : Nat → Prop} {t : Nat → Option Header} {p a : Nat} {d c : Header}

lemma relink (h : Tree ext t) (hp : t p = some d) (hd : d.type = .dir) (hk : k ≠ 0) :
    Tree ext (update t p (some { d with nlinks := k })) := by
  have hnamed : ∀ a, Named t a → Named (update t p (some { d with nlinks := k })) a := by
    rintro a ⟨q, g, hg, e, he, ha⟩
    by_cases hq : q = p
    · subst hq
      rw [hp] at hg
      cases hg
      exact ⟨q, _, update_self .., e, he, ha⟩
    · exact ⟨q, g, by rwa [update_of_ne hq], e, he, ha⟩
  constructor
  · obtain ⟨r, hr, hrt⟩ := h.root
    grind [update_apply]
  · have := h.parent
    grind [update_apply]
  · have := h.child
    grind [update_apply]
  · have := h.nodup
    grind [update_apply]
  · have := h.unique
    grind [update_apply]
  · have := h.linked
    have := h.dir p d hp hd
    grind [update_apply]
  · have := h.file
    grind [update_apply]
  · have := h.dir
    grind [update_apply]
  · have := h.outer
    grind [update_apply]

/-- The inodes at other addresses than `a` keep their type and their links when the entries of `p`
change. -/
lemma keep {t' : Nat → Option Header} {n : Header} {cs : List DirEntry}
    {b : Nat} (hp : t p = some d)
    (hget : ∀ q g, t' q = some g ↔ (q = p ∧ g = { d with children := cs }) ∨ (q = a ∧ g = n) ∨
      (q ≠ p ∧ q ≠ a ∧ t q = some g)) (hb : b ≠ a) (hc : t b = some c) :
    ∃ c', t' b = some c' ∧ c'.type = c.type ∧ c'.nlinks = c.nlinks := by
  by_cases hbp : b = p
  · rw [hbp, hp] at hc
    cases hc
    exact ⟨_, (hget _ _).mpr (.inl ⟨hbp, rfl⟩), rfl, rfl⟩
  · exact ⟨c, (hget _ _).mpr (.inr (.inr ⟨hbp, hb, hc⟩)), rfl, rfl⟩

/-- The entries of `p` become `cs`, which name `a` just if the inode there has a link now. -/
lemma rewire (h : Tree ext t) {n : Header} {cs : List DirEntry} (hp : t p = some d)
    (hd : d.type = .dir) (hpa : p ≠ a) (hroot : a ≠ rootAddr) (hext : ¬ext a)
    (hold : ∀ c, t a = some c → c.children = [])
    (hother : ∀ q g, t q = some g → ∀ e ∈ g.children, e.inode = a → q = p) (hn : n.children = [])
    (hfile : n.type ≠ .dir → n.nlinks ≤ 1) (hdir : n.type = .dir → n.nlinks ≠ 0)
    (hnodup : (cs.map DirEntry.inode).Nodup)
    (hcs : ∀ e ∈ cs, e.inode = a ∧ n.type = e.type ∧ n.nlinks ≠ 0 ∨ e.inode ≠ a ∧ e ∈ d.children)
    (hkeep : ∀ e ∈ d.children, e.inode ≠ a → e ∈ cs)
    (hlink : n.nlinks ≠ 0 → ∃ e ∈ cs, e.inode = a) :
    Tree ext (update (update t a (some n)) p (some { d with children := cs })) := by
  have hget : ∀ q g, update (update t a (some n)) p (some { d with children := cs }) q = some g ↔
      (q = p ∧ g = { d with children := cs }) ∨ (q = a ∧ g = n) ∨
        (q ≠ p ∧ q ≠ a ∧ t q = some g) := by
    grind [update_apply]
  generalize update (update t a (some n)) p (some { d with children := cs }) = t' at hget
  have hentry : ∀ q g e, t' q = some g → e ∈ g.children →
      (q = p ∧ e.inode = a ∧ n.type = e.type ∧ n.nlinks ≠ 0) ∨
        e.inode ≠ a ∧ ∃ g', t q = some g' ∧ e ∈ g'.children := by
    intro q g e hg he
    rcases (hget q g).mp hg with ⟨rfl, rfl⟩ | ⟨rfl, rfl⟩ | ⟨hqp, -, hg⟩
    · exact (hcs e he).imp (⟨rfl, ·⟩) fun ⟨hne, hin⟩ => ⟨hne, d, hp, hin⟩
    · cases hn ▸ he
    · exact .inr ⟨fun ha => hqp (hother q g hg e he ha), g, hg, he⟩
  have hnamed : ∀ b, b ≠ a → Named t b → Named t' b := by
    rintro b hb ⟨q, g, hg, e, he, rfl⟩
    by_cases hq : q = p
    · subst hq
      rw [hp] at hg
      cases hg
      exact ⟨q, _, (hget _ _).mpr (.inl ⟨rfl, rfl⟩), e, hkeep e he hb, rfl⟩
    · have hqa : q ≠ a := by
        rintro rfl
        cases hold g hg ▸ he
      exact ⟨q, g, (hget q g).mpr (.inr (.inr ⟨hq, hqa, hg⟩)), e, he, rfl⟩
  constructor
  · obtain ⟨r, hr, hrt⟩ := h.root
    obtain ⟨r', hr', ht, -⟩ := keep hp hget hroot.symm hr
    exact ⟨r', hr', ht.trans hrt⟩
  · have := h.parent
    grind
  · intro q g e hg he
    rcases hentry q g e hg he with ⟨-, ha, htype, hlinks⟩ | ⟨hne, g', hg', he'⟩
    · exact ⟨ha ▸ hroot, ha ▸ hext, n, (hget _ _).mpr (.inr (.inl ⟨ha, rfl⟩)), htype, hlinks⟩
    · obtain ⟨hroot', hext', c, hc, htype, hlinks⟩ := h.child q g' e hg' he'
      obtain ⟨c', hc', ht, hl⟩ := keep hp hget hne hc
      exact ⟨hroot', hext', c', hc', ht.trans htype, hl ▸ hlinks⟩
  · intro q g hg
    rcases (hget q g).mp hg with ⟨rfl, rfl⟩ | ⟨rfl, rfl⟩ | ⟨-, -, hg⟩
    · exact hnodup
    · simp [hn]
    · exact h.nodup q g hg
  · intro q g q' g' e e' hg hg' he he' heq
    have := h.unique
    grind
  · intro b c hc hlinks
    rcases (hget b c).mp hc with ⟨rfl, rfl⟩ | ⟨rfl, rfl⟩ | ⟨-, hqa, hg⟩
    · exact (h.linked b d hp hlinks).imp_right (Or.imp_right (hnamed b hpa))
    · exact .inr (.inr ⟨p, _, (hget _ _).mpr (.inl ⟨rfl, rfl⟩), hlink hlinks⟩)
    · exact (h.linked b c hg hlinks).imp_right (Or.imp_right (hnamed b hqa))
  · have := h.file
    grind
  · have := h.dir
    grind
  · intro b hb
    obtain ⟨hroot', c, hc, hlinks⟩ := h.outer b hb
    obtain ⟨c', hc', -, hl⟩ := keep hp hget (fun heq => hext (heq ▸ hb)) hc
    exact ⟨hroot', c', hc', hl ▸ hlinks⟩

lemma create (h : Tree ext t) (hp : t p = some d) (hd : d.type = .dir)
    (ha : t a = none) {e : DirEntry}
    (he : e.inode = a) {k : Nat} : Tree ext (update (update t a (some ⟨e.type, 1, k, []⟩)) p
      (some { d with children := e :: d.children })) := by
  have hused : ∀ b c, t b = some c → b ≠ a := by
    rintro b c hc rfl
    cases ha.symm.trans hc
  have hout : ∀ q g, t q = some g → ∀ e' ∈ g.children, e'.inode ≠ a := by
    intro q g hg e' he'
    obtain ⟨-, -, c, hc, -⟩ := h.child q g e' hg he'
    exact hused _ _ hc
  obtain ⟨r, hr, -⟩ := h.root
  refine h.rewire hp hd (hused p d hp) (hused _ r hr).symm (fun hext => ?_) (fun c hc => ?_) ?_ rfl
    (fun _ => le_rfl) (fun _ => one_ne_zero) ?_ ?_ (fun e' he' _ => mem_cons_of_mem e he')
    fun _ => ⟨e, mem_cons_self, he⟩
  · obtain ⟨-, c, hc, -⟩ := h.outer _ hext
    exact hused _ _ hc rfl
  · cases ha.symm.trans hc
  · exact fun q g hg e' he' heq => absurd heq (hout q g hg e' he')
  · simp only [map_cons, nodup_cons, mem_map, not_exists, not_and]
    exact ⟨fun e' he' heq => hout p d hp e' he' (heq.trans he), h.nodup p d hp⟩
  · intro e' he'
    rcases mem_cons.mp he' with rfl | he'
    · exact .inl ⟨he, rfl, one_ne_zero⟩
    · exact .inr ⟨hout p d hp e' he', he'⟩

lemma unlink (h : Tree ext t) (hp : t p = some d) {q : DirEntry → Bool} {e : DirEntry}
    (he : d.children.find? q = some e) (hfile : e.type ≠ .dir) (hc : t e.inode = some c) :
    Tree ext (update (update t e.inode (some { c with nlinks := 0 })) p
      (some { d with children := d.children.eraseP q })) := by
  have hmem : e ∈ d.children := mem_of_find?_eq_some he
  obtain ⟨hroot, hext, c', hc', htype, hlinks⟩ := h.child p d e hp hmem
  rw [hc] at hc'
  cases hc'
  have hdir := h.parent p d e hp hmem
  have hpe : p ≠ e.inode := by
    rintro hpe
    rw [← hpe, hp] at hc
    cases hc
    exact hfile (htype.symm.trans hdir)
  have hempty : c.children = [] :=
    eq_nil_iff_forall_not_mem.mpr fun e' he' => hfile (htype.symm.trans (h.parent _ c e' hc he'))
  -- what is left of the list are the other entries
  have hrest : ∀ e', e' ∈ d.children.eraseP q ↔ e' ∈ d.children ∧ e'.inode ≠ e.inode := by
    obtain ⟨hq, pre, post, hsplit, hpre⟩ := find?_eq_some_iff_append.mp he
    have hpre' : ∀ x ∈ pre, ¬q x = true := fun x hx => by simpa using hpre x hx
    have herase : d.children.eraseP q = pre ++ post := by
      rw [hsplit, eraseP_append_right _ hpre', eraseP_cons_of_pos hq]
    have hnodup := h.nodup p d hp
    rw [hsplit, map_append, map_cons] at hnodup
    intro e'
    rw [herase, hsplit]
    have hnot : e.inode ∉ pre.map DirEntry.inode ∧ e.inode ∉ post.map DirEntry.inode := by
      rw [nodup_append] at hnodup
      grind
    constructor
    · intro hin
      refine ⟨by grind, fun heq => ?_⟩
      rcases mem_append.mp hin with hin | hin
      · exact hnot.1 (heq ▸ mem_map_of_mem hin)
      · exact hnot.2 (heq ▸ mem_map_of_mem hin)
    · rintro ⟨hin, hne⟩
      grind
  refine h.rewire hp hdir hpe hroot hext (fun c' hc' => ?_)
    (fun q' g hg e' he' heq => h.unique q' g p d e' e hg hp he' hmem heq) hempty
    (fun _ => zero_le_one)
    (fun ht => absurd (htype.symm.trans ht) hfile) ((h.nodup p d hp).sublist (eraseP_sublist.map _))
    (fun e' he' => .inr ((hrest e').mp he').symm) (fun e' he' hne => (hrest e').mpr ⟨he', hne⟩)
    (absurd rfl)
  cases hc.symm.trans hc'
  exact hempty

lemma free (h : Tree ext t) (ha : t a = some c) (hlinks : c.nlinks = 0) :
    Tree ext (update t a none) := by
  have hfile : c.type ≠ .dir := fun hdir => h.dir a c ha hdir hlinks
  have hget : ∀ b g, update t a none b = some g ↔ b ≠ a ∧ t b = some g := by
    grind [update_apply]
  generalize update t a none = t' at hget
  have hnamed : ∀ b, Named t b → Named t' b := by
    rintro b ⟨q, g, hg, e, he, hb⟩
    refine ⟨q, g, (hget q g).mpr ⟨?_, hg⟩, e, he, hb⟩
    rintro rfl
    rw [ha] at hg
    cases hg
    exact hfile (h.parent _ _ e ha he)
  constructor
  · obtain ⟨r, hr, hrt⟩ := h.root
    grind
  · have := h.parent
    grind
  · have := h.child
    grind
  · have := h.nodup
    grind
  · have := h.unique
    grind
  · have := h.linked
    grind
  · have := h.file
    grind
  · have := h.dir
    grind
  · have := h.outer
    grind

end Tree

end FrostVista.Tmpfs
