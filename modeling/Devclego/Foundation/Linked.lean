import Devclego.Foundation.Memory

/-!
# Doubly linked cells

A stretch of a doubly linked list is a list of addressed values. Its cells point
at each other in both directions; what the two ends point at is left open, so
that stretches can be joined and taken apart at any place.
-/
namespace Devclego.Foundation

variable {β N : Type}

/-- What a pointer into the list leads to first, and `next` if the list is empty. -/
def headPtr (xs : List (Addr × β)) (next : Ptr) : Ptr :=
  match xs with
  | [] => next
  | x :: _ => some x.1

def lastPtr (prev : Ptr) : List (Addr × β) → Ptr
  | [] => prev
  | x :: xs => lastPtr (some x.1) xs

/-- Cells of a stretch between the pointers `prev` and `next`. A cell is made of its
value, its `next` and its `prev`. -/
def Linked (cell : β → Ptr → Ptr → N) (m : Memory N) : Ptr → List (Addr × β) → Ptr → Prop
  | _, [], _ => True
  | prev, x :: xs, next => m.read x.1 = some (cell x.2 (headPtr xs next) prev) ∧ Linked cell m (some x.1) xs next

@[simp] theorem headPtr_nil (next : Ptr) : headPtr ([] : List (Addr × β)) next = next := rfl

@[simp] theorem headPtr_cons (x : Addr × β) (xs : List (Addr × β)) (next : Ptr) :
    headPtr (x :: xs) next = some x.1 := rfl

@[simp] theorem lastPtr_nil (prev : Ptr) : lastPtr prev ([] : List (Addr × β)) = prev := rfl

@[simp] theorem lastPtr_concat (prev : Ptr) (xs : List (Addr × β)) (x : Addr × β) :
    lastPtr prev (xs ++ [x]) = some x.1 := by
  induction xs generalizing prev with
  | nil => rfl
  | cons y ys ih => exact ih (some y.1)

theorem headPtr_append (xs ys : List (Addr × β)) (next : Ptr) :
    headPtr (xs ++ ys) next = headPtr xs (headPtr ys next) := by
  cases xs with
  | nil => rfl
  | cons x xs => rfl

theorem headPtr_concat (xs : List (Addr × β)) (x : Addr × β) (next : Ptr) :
    ∃ a, headPtr (xs ++ [x]) next = some a := by
  cases xs with
  | nil => exact ⟨x.1, rfl⟩
  | cons y ys => exact ⟨y.1, rfl⟩

theorem headPtr_eq_none_iff {xs : List (Addr × β)} : headPtr xs none = none ↔ xs = [] := by
  cases xs with
  | nil => simp
  | cons x xs => simp

theorem lastPtr_eq_none_iff {xs : List (Addr × β)} : lastPtr none xs = none ↔ xs = [] := by
  rcases List.eq_nil_or_concat xs with rfl | ⟨ys, y, rfl⟩
  · simp
  · simp

theorem nodup_concat {ys : List (Addr × β)} {y : Addr × β} (h : ((ys ++ [y]).map Prod.fst).Nodup) :
    (ys.map Prod.fst).Nodup ∧ y.1 ∉ ys.map Prod.fst := by
  rw [List.map_append, List.map_singleton, List.nodup_append] at h
  obtain ⟨hys, -, hapart⟩ := h
  exact ⟨hys, fun hy => hapart y.1 hy y.1 (List.mem_singleton_self _) rfl⟩

variable {cell : β → Ptr → Ptr → N} {m m' : Memory N} {prev next : Ptr} {xs ys : List (Addr × β)}

/-- Two stretches that point at each other are one. -/
theorem linked_append : Linked cell m prev (xs ++ ys) next ↔
    Linked cell m prev xs (headPtr ys next) ∧ Linked cell m (lastPtr prev xs) ys next := by
  induction xs generalizing prev with
  | nil => simp [Linked]
  | cons x xs ih =>
    simp only [List.cons_append, Linked, headPtr_append, ih, lastPtr]
    exact and_assoc.symm

theorem linked_concat {x : Addr × β} : Linked cell m prev (xs ++ [x]) next ↔
    Linked cell m prev xs (some x.1) ∧ m.read x.1 = some (cell x.2 next (lastPtr prev xs)) := by
  rw [linked_append]
  simp [Linked]

theorem Linked.congr (h : Linked cell m prev xs next)
    (hag : ∀ a ∈ xs.map Prod.fst, m'.read a = m.read a) : Linked cell m' prev xs next := by
  induction xs generalizing prev with
  | nil => trivial
  | cons x xs ih =>
    obtain ⟨hx, hxs⟩ := h
    exact ⟨(hag x.1 (by simp)).trans hx, ih hxs fun a ha => hag a (List.mem_cons_of_mem _ ha)⟩

theorem Linked.set_of_not_mem (h : Linked cell m prev xs next) {a : Addr} (ha : a ∉ xs.map Prod.fst)
    (v : Option N) : Linked cell (m.set a v) prev xs next :=
  h.congr fun _ hb => m.read_set_ne (ne_of_mem_of_not_mem hb ha) v

theorem Linked.live (h : Linked cell m prev xs next) : ∀ a ∈ xs.map Prod.fst, (m.read a).isSome := by
  induction xs generalizing prev with
  | nil => intro a ha; simp at ha
  | cons x xs ih =>
    obtain ⟨hx, hxs⟩ := h
    intro a ha
    rw [List.map_cons, List.mem_cons] at ha
    rcases ha with rfl | ha
    · simp [hx]
    · exact ih hxs a ha

/-- Only cells that are live can be linked, so a new cell is not among them. -/
theorem Linked.size_not_mem (h : Linked cell m prev xs next) : m.size ∉ xs.map Prod.fst := by
  intro hm
  have hlive := h.live m.size hm
  simp [m.read_size] at hlive

/-- Redirecting the first cell's `prev`. -/
theorem Linked.relink_first {x : Addr × β} (h : Linked cell m prev (x :: xs) next)
    (hx : x.1 ∉ xs.map Prod.fst) (prev' : Ptr) :
    Linked cell (m.set x.1 (some (cell x.2 (headPtr xs next) prev'))) prev' (x :: xs) next :=
  ⟨Memory.read_set_self h.1 _, h.2.set_of_not_mem hx _⟩

/-- Redirecting the last cell's `next`. -/
theorem Linked.relink_last {x : Addr × β} (h : Linked cell m prev (xs ++ [x]) next)
    (hx : x.1 ∉ xs.map Prod.fst) (next' : Ptr) :
    Linked cell (m.set x.1 (some (cell x.2 next' (lastPtr prev xs)))) prev (xs ++ [x]) next' := by
  obtain ⟨hxs, hread⟩ := linked_concat.mp h
  exact linked_concat.mpr ⟨hxs.set_of_not_mem hx _, Memory.read_set_self hread _⟩

/-- Two stretches from one pointer agree as far as the shorter one goes. -/
theorem Linked.unique_prefix (hcell : ∀ a b n n' p p', cell a n p = cell b n' p' → a = b ∧ n = n') {next' : Ptr}
    (h : Linked cell m prev xs next) (h' : Linked cell m prev ys next') (hhead : headPtr xs next = headPtr ys next')
    (hle : xs.length ≤ ys.length) : ∃ rest, ys = xs ++ rest ∧ next = headPtr rest next' := by
  induction xs generalizing prev ys with
  | nil => exact ⟨ys, rfl, hhead⟩
  | cons x xs ih =>
    cases ys with
    | nil => exact absurd hle (Nat.not_succ_le_zero _)
    | cons y ys =>
      have haddr : x.1 = y.1 := Option.some.inj hhead
      obtain ⟨hx, hxs⟩ := h
      obtain ⟨hy, hys⟩ := h'
      rw [haddr] at hx hxs
      obtain ⟨hvalue, hnext⟩ := hcell _ _ _ _ _ _ (Option.some.inj (hx.symm.trans hy))
      obtain ⟨rest, rfl, he⟩ := ih hxs hys hnext (Nat.le_of_succ_le_succ hle)
      refine ⟨rest, ?_, he⟩
      rw [List.cons_append, Prod.ext haddr hvalue]

/-- Stretches from one pointer to the null pointer are the same. -/
theorem Linked.unique (hcell : ∀ a b n n' p p', cell a n p = cell b n' p' → a = b ∧ n = n')
    (h : Linked cell m prev xs none) (h' : Linked cell m prev ys none) (hhead : headPtr xs none = headPtr ys none) :
    xs = ys := by
  rcases Nat.le_total xs.length ys.length with hle | hle
  · obtain ⟨rest, rfl, hrest⟩ := h.unique_prefix hcell h' hhead hle
    rw [headPtr_eq_none_iff.mp hrest.symm, List.append_nil]
  · obtain ⟨rest, rfl, hrest⟩ := h'.unique_prefix hcell h hhead.symm hle
    rw [headPtr_eq_none_iff.mp hrest.symm, List.append_nil]

/-! ## Cells that point forward only -/

theorem Linked.forward (hforward : ∀ a n p p', cell a n p = cell a n p') (h : Linked cell m prev xs next)
    (prev' : Ptr) : Linked cell m prev' xs next := by
  cases xs with
  | nil => trivial
  | cons x xs => exact ⟨h.1.trans (congrArg some (hforward _ _ _ _)), h.2⟩

/-- On the way to the null pointer no cell is met twice. -/
theorem Linked.distinct (hcell : ∀ a b n n' p p', cell a n p = cell b n' p' → a = b ∧ n = n')
    (hforward : ∀ a n p p', cell a n p = cell a n p') (h : Linked cell m prev xs none) :
    (xs.map Prod.fst).Nodup := by
  induction xs generalizing prev with
  | nil => exact List.nodup_nil
  | cons x xs ih =>
    refine List.nodup_cons.mpr ⟨fun hx => ?_, ih h.2⟩
    obtain ⟨y, hy, he⟩ := List.mem_map.mp hx
    obtain ⟨us, vs, rfl⟩ := List.append_of_mem hy
    -- met again, the cell would begin a shorter stretch with the same end
    have hagain : Linked cell m prev (y :: vs) none := (linked_append.mp h.2).2.forward hforward prev
    have hsame : y :: vs = x :: (us ++ y :: vs) := hagain.unique hcell h (congrArg some he)
    have hlength := congrArg List.length hsame
    simp only [List.length_cons, List.length_append] at hlength
    omega

end Devclego.Foundation
