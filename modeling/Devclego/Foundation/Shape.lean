import Devclego.Foundation.Memory

/-!
# Binary trees linked through a memory

A `Shape` is an ordinary binary tree whose nodes remember their addresses.
`Holds` relates it to a memory whose cells store a value and two child pointers;
the record layout is the parameter `cell`. A `Trail` is the path from a focus
back to the root, innermost step first, so an update below one pointer is
`plug` with the same trail and another subtree.
-/
namespace Devclego.Foundation

inductive Shape (β : Type) where
  | nil
  | node (addr : Addr) (val : β) (left right : Shape β)
deriving DecidableEq, Repr

namespace Shape

variable {β N : Type}

def ptr : Shape β → Ptr
  | nil => none
  | node a _ _ _ => some a

def inorder : Shape β → List (Addr × β)
  | nil => []
  | node a v l r => l.inorder ++ (a, v) :: r.inorder

def addrs (t : Shape β) : List Addr := t.inorder.map Prod.fst

def vals (t : Shape β) : List β := t.inorder.map Prod.snd

def size (t : Shape β) : Nat := t.inorder.length

@[simp] theorem ptr_nil : (nil : Shape β).ptr = none := rfl
@[simp] theorem ptr_node (a : Addr) (v : β) (l r : Shape β) : (node a v l r).ptr = some a := rfl
@[simp] theorem inorder_nil : (nil : Shape β).inorder = [] := rfl
@[simp] theorem inorder_node (a : Addr) (v : β) (l r : Shape β) :
    (node a v l r).inorder = l.inorder ++ (a, v) :: r.inorder := rfl
@[simp] theorem addrs_nil : (nil : Shape β).addrs = [] := rfl
@[simp] theorem addrs_node (a : Addr) (v : β) (l r : Shape β) :
    (node a v l r).addrs = l.addrs ++ a :: r.addrs := by simp [addrs]
@[simp] theorem vals_nil : (nil : Shape β).vals = [] := rfl
@[simp] theorem vals_node (a : Addr) (v : β) (l r : Shape β) :
    (node a v l r).vals = l.vals ++ v :: r.vals := by simp [vals]
@[simp] theorem size_nil : (nil : Shape β).size = 0 := rfl
@[simp] theorem size_node (a : Addr) (v : β) (l r : Shape β) :
    (node a v l r).size = l.size + r.size + 1 := by simp [size]; omega

theorem length_addrs (t : Shape β) : t.addrs.length = t.size := by simp [addrs, size]

theorem length_vals (t : Shape β) : t.vals.length = t.size := by simp [vals, size]

theorem eq_nil_of_inorder {t : Shape β} (h : t.inorder = []) : t = nil := by
  cases t with
  | nil => rfl
  | node a v l r => simp at h

theorem exists_node {t : Shape β} (h : t ≠ nil) : ∃ a v l r, t = node a v l r := by
  cases t with
  | nil => exact absurd rfl h
  | node a v l r => exact ⟨a, v, l, r, rfl⟩

theorem ptr_eq_none_iff {t : Shape β} : t.ptr = none ↔ t = nil := by
  cases t with
  | nil => simp
  | node a v l r => simp

theorem mem_addrs_of_ptr {t : Shape β} {a : Addr} (h : t.ptr = some a) : a ∈ t.addrs := by
  cases t with
  | nil => simp at h
  | node b v l r => simp at h; simp [h]

/-- Every cell of the tree stores its value and the pointers to its subtrees. -/
def Holds (cell : β → Ptr → Ptr → N) (m : Memory N) : Shape β → Prop
  | nil => True
  | node a v l r => m.read a = some (cell v l.ptr r.ptr) ∧ Holds cell m l ∧ Holds cell m r

variable {cell : β → Ptr → Ptr → N} {m m' : Memory N}

theorem Holds.congr {t : Shape β} (h : Holds cell m t)
    (hag : ∀ a ∈ t.addrs, m'.read a = m.read a) : Holds cell m' t := by
  induction t with
  | nil => trivial
  | node a v l r ihl ihr =>
    obtain ⟨ha, hl, hr⟩ := h
    refine ⟨(hag a (by simp)).trans ha, ihl hl ?_, ihr hr ?_⟩
    · intro b hb; exact hag b (by simp [hb])
    · intro b hb; exact hag b (by simp [hb])

theorem Holds.live {t : Shape β} (h : Holds cell m t) : ∀ a ∈ t.addrs, (m.read a).isSome := by
  induction t with
  | nil => intro a ha; simp at ha
  | node b v l r ihl ihr =>
    obtain ⟨hb, hl, hr⟩ := h
    intro a ha
    simp only [addrs_node, List.mem_append, List.mem_cons] at ha
    rcases ha with ha | rfl | ha
    · exact ihl hl a ha
    · simp [hb]
    · exact ihr hr a ha

theorem Holds.read {t : Shape β} (h : Holds cell m t) {a : Addr} {v : β} (hm : (a, v) ∈ t.inorder) :
    ∃ l r, m.read a = some (cell v l r) := by
  induction t with
  | nil => simp at hm
  | node b w l r ihl ihr =>
    obtain ⟨hb, hl, hr⟩ := h
    simp only [inorder_node, List.mem_append, List.mem_cons, Prod.mk.injEq] at hm
    rcases hm with hm | ⟨rfl, rfl⟩ | hm
    · exact ihl hl hm
    · exact ⟨l.ptr, r.ptr, hb⟩
    · exact ihr hr hm

theorem Holds.size_le {t : Shape β} (h : Holds cell m t) (hn : t.addrs.Nodup) : t.size ≤ m.size := by
  rw [← length_addrs]
  exact Memory.length_le_size hn h.live

/-- A pointer determines the tree behind it. -/
theorem Holds.unique (hcell : ∀ v v' p p' q q', cell v p q = cell v' p' q' → v = v' ∧ p = p' ∧ q = q')
    {t t' : Shape β} (h : Holds cell m t) (h' : Holds cell m t') (hp : t.ptr = t'.ptr) : t = t' := by
  induction t generalizing t' with
  | nil => exact (ptr_eq_none_iff.mp hp.symm).symm
  | node a v l r ihl ihr =>
    cases t' with
    | nil => simp at hp
    | node a' v' l' r' =>
      obtain ⟨ha, hl, hr⟩ := h
      obtain ⟨ha', hl', hr'⟩ := h'
      obtain rfl : a = a' := by simpa using hp
      obtain ⟨rfl, hpl, hpr⟩ := hcell _ _ _ _ _ _ (Option.some.inj (ha.symm.trans ha'))
      rw [ihl hl hl' hpl, ihr hr hr' hpr]

/-- Writing a cell the tree does not use leaves it stored. -/
theorem Holds.set_of_not_mem {t : Shape β} (h : Holds cell m t) {a : Addr} (ha : a ∉ t.addrs)
    (v : Option N) : Holds cell (m.set a v) t :=
  h.congr fun _ hb => m.read_set_ne (ne_of_mem_of_not_mem hb ha) v

end Shape

/-- One step of a path, with what hangs on the other side. -/
inductive Crumb (β : Type) where
  | goLeft (addr : Addr) (val : β) (right : Shape β)
  | goRight (addr : Addr) (val : β) (left : Shape β)

namespace Crumb

variable {β N : Type}

def addr : Crumb β → Addr
  | goLeft a _ _ => a
  | goRight a _ _ => a

/-- The subtree that is not walked into. -/
def side : Crumb β → Shape β
  | goLeft _ _ r => r
  | goRight _ _ l => l

def fill : Crumb β → Shape β → Shape β
  | goLeft a v r, t => .node a v t r
  | goRight a v l, t => .node a v l t

/-- The cell of this step when the walked pointer is `p`. -/
def link (cell : β → Ptr → Ptr → N) : Crumb β → Ptr → N
  | goLeft _ v r, p => cell v p r.ptr
  | goRight _ v l, p => cell v l.ptr p

@[simp] theorem ptr_fill (c : Crumb β) (t : Shape β) : (c.fill t).ptr = some c.addr := by
  cases c <;> rfl

end Crumb

abbrev Trail (β : Type) := List (Crumb β)

namespace Trail

open Shape

variable {β N : Type} {cell : β → Ptr → Ptr → N} {m m' : Memory N}

def plug : Trail β → Shape β → Shape β
  | [], t => t
  | c :: k, t => plug k (c.fill t)

/-- The nodes that precede the focus in order. -/
def before : Trail β → List (Addr × β)
  | [] => []
  | .goLeft _ _ _ :: k => before k
  | .goRight a v l :: k => before k ++ (l.inorder ++ [(a, v)])

/-- The nodes that follow the focus in order. -/
def after : Trail β → List (Addr × β)
  | [] => []
  | .goLeft a v r :: k => (a, v) :: r.inorder ++ after k
  | .goRight _ _ _ :: k => after k

def addrs (k : Trail β) : List Addr := (before k ++ after k).map Prod.fst

def parent : Trail β → Ptr
  | [] => none
  | c :: _ => some c.addr

/-- The path is stored, with `p` in the pointer that leads to the focus. -/
def Holds (cell : β → Ptr → Ptr → N) (m : Memory N) : Trail β → Ptr → Prop
  | [], _ => True
  | c :: k, p => m.read c.addr = some (c.link cell p) ∧ c.side.Holds cell m ∧ Holds cell m k (some c.addr)

theorem inorder_plug (k : Trail β) (t : Shape β) :
    (plug k t).inorder = before k ++ (t.inorder ++ after k) := by
  induction k generalizing t with
  | nil => simp [plug, before, after]
  | cons c k ih => cases c <;> simp [plug, Crumb.fill, before, after, ih]

/-- The whole in order, cut at the node in focus. -/
theorem focus_inorder (k : Trail β) (a : Addr) (v : β) (l r : Shape β) :
    (plug k (node a v l r)).inorder = (before k ++ l.inorder) ++ (a, v) :: (r.inorder ++ after k) := by
  simp [inorder_plug]

theorem addrs_plug (k : Trail β) (t : Shape β) :
    (plug k t).addrs = (before k).map Prod.fst ++ (t.addrs ++ (after k).map Prod.fst) := by
  simp [Shape.addrs, inorder_plug]

theorem mem_addrs_plug {k : Trail β} {t : Shape β} {a : Addr} :
    a ∈ (plug k t).addrs ↔ a ∈ t.addrs ∨ a ∈ addrs k := by
  simp only [addrs_plug, addrs, List.map_append, List.mem_append]
  tauto

theorem mem_addrs_cons {c : Crumb β} {k : Trail β} {a : Addr} :
    a ∈ addrs (c :: k) ↔ a = c.addr ∨ a ∈ c.side.addrs ∨ a ∈ addrs k := by
  cases c with
  | goLeft b v r =>
    simp only [addrs, before, after, Crumb.addr, Crumb.side, Shape.addrs, List.map_append,
      List.map_cons, List.cons_append, List.mem_append, List.mem_cons]
    tauto
  | goRight b v l =>
    simp only [addrs, before, after, Crumb.addr, Crumb.side, Shape.addrs, List.map_append,
      List.map_cons, List.map_nil, List.mem_append, List.mem_cons, List.not_mem_nil]
    tauto

theorem disjoint_focus {k : Trail β} {t : Shape β} (hn : (plug k t).addrs.Nodup) :
    t.addrs.Nodup ∧ t.addrs.Disjoint (addrs k) := by
  rw [addrs_plug] at hn
  obtain ⟨-, htk, hbt⟩ := List.nodup_append.mp hn
  obtain ⟨ht, -, hta⟩ := List.nodup_append.mp htk
  refine ⟨ht, ?_⟩
  intro a hat hak
  rw [addrs, List.map_append, List.mem_append] at hak
  rcases hak with hb | ha
  · exact hbt a hb a (List.mem_append_left _ hat) rfl
  · exact hta a hat a ha rfl

/-- The address of the innermost step occurs nowhere else. -/
theorem addr_fresh {c : Crumb β} {k : Trail β} {t : Shape β} (hn : (plug (c :: k) t).addrs.Nodup) :
    c.addr ∉ t.addrs ∧ c.addr ∉ c.side.addrs ∧ c.addr ∉ addrs k := by
  rw [plug, addrs_plug] at hn
  cases c with
  | goLeft a v r =>
    have hs : ((before k).map Prod.fst ++ t.addrs ++ a :: (r.addrs ++ (after k).map Prod.fst)).Nodup := by
      simpa [Crumb.fill] using hn
    have hm := (List.nodup_cons.mp (List.nodup_middle.mp hs)).1
    simp only [List.mem_append, not_or] at hm
    simp only [Crumb.addr, Crumb.side, addrs, List.map_append, List.mem_append, not_or]
    exact ⟨hm.1.2, hm.2.1, hm.1.1, hm.2.2⟩
  | goRight a v l =>
    have hs : ((before k).map Prod.fst ++ l.addrs ++ a :: (t.addrs ++ (after k).map Prod.fst)).Nodup := by
      simpa [Crumb.fill] using hn
    have hm := (List.nodup_cons.mp (List.nodup_middle.mp hs)).1
    simp only [List.mem_append, not_or] at hm
    simp only [Crumb.addr, Crumb.side, addrs, List.map_append, List.mem_append, not_or]
    exact ⟨hm.2.1, hm.1.2, hm.1.1, hm.2.2⟩

theorem holds_fill (c : Crumb β) (t : Shape β) :
    (c.fill t).Holds cell m ↔
      t.Holds cell m ∧ m.read c.addr = some (c.link cell t.ptr) ∧ c.side.Holds cell m := by
  cases c with
  | goLeft a v r =>
    simp only [Crumb.fill, Crumb.addr, Crumb.link, Crumb.side, Shape.Holds]
    tauto
  | goRight a v l =>
    simp only [Crumb.fill, Crumb.addr, Crumb.link, Crumb.side, Shape.Holds]
    tauto

theorem holds_plug (k : Trail β) (t : Shape β) :
    (plug k t).Holds cell m ↔ t.Holds cell m ∧ Holds cell m k t.ptr := by
  induction k generalizing t with
  | nil => simp [plug, Holds]
  | cons c k ih =>
    rw [plug, ih, holds_fill, Crumb.ptr_fill, Holds]
    tauto

theorem Holds.congr {k : Trail β} {p : Ptr} (h : Holds cell m k p)
    (hag : ∀ a ∈ addrs k, m'.read a = m.read a) : Holds cell m' k p := by
  induction k generalizing p with
  | nil => trivial
  | cons c k ih =>
    obtain ⟨h1, h2, h3⟩ := h
    refine ⟨(hag _ (mem_addrs_cons.mpr (Or.inl rfl))).trans h1, h2.congr ?_, ih h3 ?_⟩
    · exact fun a ha => hag a (mem_addrs_cons.mpr (Or.inr (Or.inl ha)))
    · exact fun a ha => hag a (mem_addrs_cons.mpr (Or.inr (Or.inr ha)))

/-- Redirecting the innermost pointer of a stored path. -/
theorem Holds.relink {c : Crumb β} {k : Trail β} {t : Shape β} {p : Ptr} (p' : Ptr)
    (h : Holds cell m (c :: k) p) (hn : (plug (c :: k) t).addrs.Nodup) :
    Holds cell (m.set c.addr (some (c.link cell p'))) (c :: k) p' := by
  obtain ⟨-, hside, hk⟩ := addr_fresh hn
  obtain ⟨h1, h2, h3⟩ := h
  refine ⟨Memory.read_set_self h1 _, h2.set_of_not_mem hside _, h3.congr ?_⟩
  exact fun a ha => m.read_set_ne (ne_of_mem_of_not_mem ha hk) _

theorem length_le_addrs (k : Trail β) : k.length ≤ (addrs k).length := by
  induction k with
  | nil => simp
  | cons c k ih =>
    cases c <;> simp [addrs, before, after] at ih ⊢ <;> omega

/-- Paths compose: a focus inside a focused subtree is a focus of the whole. -/
theorem plug_append (k k' : Trail β) (t : Shape β) : plug (k ++ k') t = plug k' (plug k t) := by
  induction k generalizing t with
  | nil => rfl
  | cons c k ih => exact ih _

/-- Below a non-empty path the root pointer does not depend on the focus. -/
theorem ptr_plug_cons (c : Crumb β) (k : Trail β) (t t' : Shape β) :
    (plug (c :: k) t).ptr = (plug (c :: k) t').ptr := by
  induction k generalizing c t t' with
  | nil => simp [plug]
  | cons d k ih => exact ih d _ _

/-- Every node can be brought into focus. -/
theorem exists_plug {t : Shape β} {a : Addr} {v : β} (h : (a, v) ∈ t.inorder) :
    ∃ k l r, t = plug k (node a v l r) := by
  suffices hk : ∀ k : Trail β, ∃ k' l r, plug k t = plug k' (node a v l r) from hk []
  induction t with
  | nil => simp at h
  | node b w l r ihl ihr =>
    intro k
    simp only [inorder_node, List.mem_append, List.mem_cons, Prod.mk.injEq] at h
    rcases h with h | ⟨rfl, rfl⟩ | h
    · exact ihl h (.goLeft b w r :: k)
    · exact ⟨k, l, r, rfl⟩
    · exact ihr h (.goRight b w l :: k)

end Trail

/-- An address occurs at one place of an address-distinct list only. -/
theorem split_unique {β : Type} {a : Addr} {v v' : β} {x y x' y' : List (Addr × β)}
    (hn : ((x ++ (a, v) :: y).map Prod.fst).Nodup)
    (he : x ++ (a, v) :: y = x' ++ (a, v') :: y') : x = x' ∧ v = v' ∧ y = y' := by
  induction x generalizing x' with
  | nil =>
    cases x' with
    | nil =>
      simp only [List.nil_append, List.cons.injEq, Prod.mk.injEq] at he
      exact ⟨rfl, he.1.2, he.2⟩
    | cons b x' =>
      simp only [List.nil_append, List.cons_append, List.cons.injEq] at he
      obtain ⟨rfl, rfl⟩ := he
      simp at hn
  | cons b x ih =>
    cases x' with
    | nil =>
      simp only [List.nil_append, List.cons_append, List.cons.injEq] at he
      obtain ⟨rfl, rfl⟩ := he
      simp at hn
    | cons c x' =>
      simp only [List.cons_append, List.cons.injEq] at he
      obtain ⟨rfl, he⟩ := he
      simp only [List.cons_append, List.map_cons, List.nodup_cons] at hn
      obtain ⟨rfl, hv, hy⟩ := ih hn.2 he
      exact ⟨rfl, hv, hy⟩

namespace Trail

open Shape

variable {β : Type}

/-- The last node in order has no right subtree and nothing after it. -/
theorem exists_plug_last {t : Shape β} {x : List (Addr × β)} {a : Addr} {v : β}
    (hn : t.addrs.Nodup) (h : t.inorder = x ++ [(a, v)]) :
    ∃ k l, t = plug k (node a v l nil) ∧ after k = [] := by
  obtain ⟨k, l, r, rfl⟩ := exists_plug (show (a, v) ∈ t.inorder by simp [h])
  have hs : before k ++ (l.inorder ++ (a, v) :: r.inorder ++ after k) = x ++ [(a, v)] := by
    rw [← h, inorder_plug]; rfl
  have he : (before k ++ l.inorder) ++ (a, v) :: (r.inorder ++ after k) = x ++ (a, v) :: [] := by
    simpa using hs
  have hn' : (((before k ++ l.inorder) ++ (a, v) :: (r.inorder ++ after k)).map Prod.fst).Nodup := by
    have hi : (plug k (node a v l r)).inorder =
        (before k ++ l.inorder) ++ (a, v) :: (r.inorder ++ after k) := by simp [inorder_plug]
    rw [← hi]; exact hn
  obtain ⟨-, -, hy⟩ := split_unique hn' he
  obtain ⟨hr, hk⟩ := List.append_eq_nil_iff.mp hy
  obtain rfl := eq_nil_of_inorder hr
  exact ⟨k, l, rfl, hk⟩

/-- The first node in order has no left subtree and nothing before it. -/
theorem exists_plug_first {t : Shape β} {y : List (Addr × β)} {a : Addr} {v : β}
    (hn : t.addrs.Nodup) (h : t.inorder = (a, v) :: y) :
    ∃ k r, t = plug k (node a v nil r) ∧ before k = [] := by
  obtain ⟨k, l, r, rfl⟩ := exists_plug (show (a, v) ∈ t.inorder by simp [h])
  have he : (before k ++ l.inorder) ++ (a, v) :: (r.inorder ++ after k) = [] ++ (a, v) :: y := by
    rw [← focus_inorder]
    exact h
  have hn' : (((before k ++ l.inorder) ++ (a, v) :: (r.inorder ++ after k)).map Prod.fst).Nodup := by
    rw [← focus_inorder]
    exact hn
  obtain ⟨hx, -, -⟩ := split_unique hn' he
  obtain ⟨hk, hl⟩ := List.append_eq_nil_iff.mp hx
  obtain rfl := eq_nil_of_inorder hl
  exact ⟨k, r, rfl, hk⟩

end Trail

end Devclego.Foundation
