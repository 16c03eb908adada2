import Devclego.Foundation.Shape

/-!
# Paths from a root pointer

A path is the list of turns taken from a root. `follow` walks it through a memory
and `place` walks it in a `Shape`. When the memory holds the shape the two agree,
and a shape whose addresses are distinct leads to each of them by one path.
-/
namespace Devclego.Foundation

inductive Turn where
  | left
  | right
deriving DecidableEq, Repr

/-- The pointer at the end of a path. A walk through an absent cell leads nowhere. -/
def follow {N : Type} (link : N → Turn → Ptr) (m : Memory N) : Ptr → List Turn → Ptr
  | p, [] => p
  | p, turn :: path => (m.load p).bind fun n => follow link m (link n turn) path

namespace Shape

variable {β N : Type} {t : Shape β} {a : Addr} {path path' : List Turn}

def place : Shape β → List Turn → Ptr
  | t, [] => t.ptr
  | nil, _ :: _ => none
  | node _ _ l _, .left :: path => l.place path
  | node _ _ _ r, .right :: path => r.place path

@[simp] theorem place_nil (path : List Turn) : (nil : Shape β).place path = none := by
  cases path <;> rfl

/-- A path in the memory is a path in the tree it holds. -/
theorem Holds.follow_eq {cell : β → Ptr → Ptr → N} {link : N → Turn → Ptr} {m : Memory N}
    (hleft : ∀ v p p', link (cell v p p') .left = p) (hright : ∀ v p p', link (cell v p p') .right = p')
    (h : t.Holds cell m) (path : List Turn) : follow link m t.ptr path = t.place path := by
  induction path generalizing t with
  | nil => cases t <;> rfl
  | cons turn path ih =>
    cases t with
    | nil => rfl
    | node b v l r =>
      obtain ⟨hb, hl, hr⟩ := h
      rw [follow, ptr_node, Memory.load_some, hb, Option.bind_some]
      cases turn with
      | left =>
        rw [hleft]
        exact ih hl
      | right =>
        rw [hright]
        exact ih hr

theorem mem_of_place (h : t.place path = some a) : a ∈ t.addrs := by
  induction path generalizing t with
  | nil =>
    cases t with
    | nil => cases h
    | node b v l r => exact mem_addrs_of_ptr h
  | cons turn path ih =>
    cases t with
    | nil => cases h
    | node b v l r =>
      rw [addrs_node, List.mem_append, List.mem_cons]
      cases turn with
      | left => exact Or.inl (ih h)
      | right => exact Or.inr (Or.inr (ih h))

theorem exists_place (h : a ∈ t.addrs) : ∃ path, t.place path = some a := by
  induction t with
  | nil => simp at h
  | node b v l r ihl ihr =>
    rw [addrs_node, List.mem_append, List.mem_cons] at h
    rcases h with h | rfl | h
    · obtain ⟨path, hp⟩ := ihl h
      exact ⟨.left :: path, hp⟩
    · exact ⟨[], rfl⟩
    · obtain ⟨path, hp⟩ := ihr h
      exact ⟨.right :: path, hp⟩

/-- The root, the left and the right part of a node share no address, so two paths
to one place make the same turns. -/
theorem place_unique (hn : t.addrs.Nodup) (h : t.place path = some a) (h' : t.place path' = some a) :
    path = path' := by
  induction t generalizing path path' with
  | nil => simp at h
  | node b v l r ihl ihr =>
    rw [addrs_node] at hn
    obtain ⟨hl, hbr, hlr⟩ := List.nodup_append.mp hn
    obtain ⟨hb, hr⟩ := List.nodup_cons.mp hbr
    have hroot : ∀ turn path, (node b v l r).place (turn :: path) ≠ some b := by
      intro turn path hp
      cases turn with
      | left => exact hlr b (mem_of_place hp) b (List.mem_cons_self ..) rfl
      | right => exact hb (mem_of_place hp)
    have hsides : ∀ p p', l.place p = some a → r.place p' = some a → False := fun p p' hp hp' =>
      hlr a (mem_of_place hp) a (List.mem_cons_of_mem b (mem_of_place hp')) rfl
    cases path with
    | nil =>
      obtain rfl : b = a := Option.some.inj h
      cases path' with
      | nil => rfl
      | cons turn path' => exact absurd h' (hroot turn path')
    | cons turn path =>
      cases path' with
      | nil =>
        obtain rfl : b = a := Option.some.inj h'
        exact absurd h (hroot turn path)
      | cons turn' path' =>
        cases turn with
        | left =>
          cases turn' with
          | left => rw [ihl hl h h']
          | right => exact (hsides path path' h h').elim
        | right =>
          cases turn' with
          | left => exact (hsides path' path h' h).elim
          | right => rw [ihr hr h h']

theorem existsUnique_place (hn : t.addrs.Nodup) (h : a ∈ t.addrs) : ∃! path, t.place path = some a := by
  obtain ⟨path, hp⟩ := exists_place h
  exact ⟨path, hp, fun path' hp' => place_unique hn hp' hp⟩

end Shape

end Devclego.Foundation
