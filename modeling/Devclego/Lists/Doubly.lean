import Devclego.Lists.Model

/-!
# Doubly linked lists stay well linked

The nodes of a list are the cells made since it was empty. A `datchain_append` to a chain
that has a node breaks this: its new cell stays apart, and the chain goes on at the item.
-/
namespace Devclego.Lists

open Foundation Queues

/-- The list from its head: one node made for each item, linked in both directions, and
visited in that order. -/
structure WellLinked (kind : Kind) (size : Nat) (s : Compared) (nodes : List (Addr × Ptr)) : Prop where
  items : nodes.map Prod.snd = s.items
  distinct : (nodes.map Prod.fst).Nodup
  made : ∀ a ∈ nodes.map Prod.fst, size ≤ a
  head : s.head = headPtr nodes none
  linked : Linked Dlist.mk s.mem none nodes none
  visited : kind.foreach s.mem s.head = some (nodes.map Prod.fst)

/-- What the operations keep: the nodes are just the cells made so far. -/
structure Built (size : Nat) (s : Compared) (nodes : List (Addr × Ptr)) : Prop where
  items : nodes.map Prod.snd = s.items
  distinct : (nodes.map Prod.fst).Nodup
  made : ∀ a, a ∈ nodes.map Prod.fst ↔ size ≤ a ∧ a < s.mem.size
  size_le : size ≤ s.mem.size
  head : s.head = headPtr nodes none
  linked : Linked Dlist.mk s.mem none nodes none

/-- A chain is appended to when it has no node. -/
def Linkable (s : Compared) : ListOp → Prop
  | .append _ => s.head = none
  | .prepend _ => True

instance (s : Compared) : (op : ListOp) → Decidable (Linkable s op)
  | .append _ => inferInstanceAs (Decidable (_ = _))
  | .prepend _ => isTrue trivial

variable {mem : Mem Ptr} {prev : Ptr} {nodes : List (Addr × Ptr)} {kind : Kind} {size : Nat} {s : Compared}

/-! ## Walks -/

theorem findTail_spec {β N : Type} {cell : β → Ptr → Ptr → N} {next : N → Ptr} {mem : Memory N}
    {nodes : List (Addr × β)} {y : Addr × β} {a : Addr} {fuel : Nat} (hnext : ∀ v n p, next (cell v n p) = n)
    (h : Linked cell mem prev (nodes ++ [y]) none) (ha : headPtr (nodes ++ [y]) none = some a)
    (hfuel : nodes.length < fuel) : findTail next mem fuel a = some y.1 := by
  induction nodes generalizing prev a fuel with
  | nil =>
    obtain ⟨fuel, rfl⟩ := Nat.exists_eq_succ_of_ne_zero (Nat.ne_of_gt hfuel)
    cases ha
    rw [findTail, h.1]
    simp only [Option.bind_eq_bind, Option.bind_some, hnext, headPtr_nil]
  | cons x nodes ih =>
    obtain ⟨fuel, rfl⟩ := Nat.exists_eq_succ_of_ne_zero (Nat.ne_of_gt (Nat.zero_lt_of_lt hfuel))
    cases ha
    obtain ⟨b, hb⟩ := headPtr_concat nodes y none
    have hread : mem.read x.1 = some (cell x.2 (some b) prev) := by
      rw [← hb]
      exact h.1
    rw [findTail, hread]
    simp only [Option.bind_eq_bind, Option.bind_some, hnext]
    exact ih h.2 hb (Nat.lt_of_succ_lt_succ hfuel)

theorem visits_spec {fuel : Nat} (h : Linked Dlist.mk mem prev nodes none) (hfuel : nodes.length < fuel) :
    visits Dlist.next mem fuel (headPtr nodes none) = some (nodes.map Prod.fst) := by
  induction nodes generalizing prev fuel with
  | nil =>
    obtain ⟨fuel, rfl⟩ := Nat.exists_eq_succ_of_ne_zero (Nat.ne_of_gt hfuel)
    rfl
  | cons x nodes ih =>
    obtain ⟨fuel, rfl⟩ := Nat.exists_eq_succ_of_ne_zero (Nat.ne_of_gt (Nat.zero_lt_of_lt hfuel))
    obtain ⟨hx, hnodes⟩ := h
    have hrest := ih hnodes (Nat.lt_of_succ_lt_succ hfuel)
    rw [headPtr_cons, visits, hx]
    simp only [Option.bind_eq_bind, Option.bind_some, hrest, List.map_cons]

theorem Built.length_le (h : Built size s nodes) : nodes.length ≤ s.mem.size := by
  have hle := Memory.length_le_size h.distinct h.linked.live
  rwa [List.length_map] at hle

theorem Built.wellLinked (h : Built size s nodes) (kind : Kind) : WellLinked kind size s nodes where
  items := h.items
  distinct := h.distinct
  made := fun a ha => ((h.made a).mp ha).1
  head := h.head
  linked := h.linked
  visited := by
    have hvisits := visits_spec h.linked (Nat.lt_succ_of_le h.length_le)
    rw [h.head]
    cases kind with
    | datchain => exact hvisits
    | dlist => exact hvisits

/-! ## The operations -/

theorem Built.fresh (h : Built size s nodes) : s.mem.size ∉ nodes.map Prod.fst := h.linked.size_not_mem

/-- The cell made last joins the nodes. -/
theorem Built.made_next (h : Built size s nodes) {nodes' : List (Addr × Ptr)} {mem' : Mem Ptr}
    (hnodes : ∀ a, a ∈ nodes'.map Prod.fst ↔ a = s.mem.size ∨ a ∈ nodes.map Prod.fst)
    (hsize : mem'.size = s.mem.size + 1) (a : Addr) : a ∈ nodes'.map Prod.fst ↔ size ≤ a ∧ a < mem'.size := by
  rw [hnodes, h.made, hsize, Nat.lt_succ_iff_lt_or_eq]
  constructor
  · rintro (rfl | ⟨hle, hlt⟩)
    · exact ⟨h.size_le, Or.inr rfl⟩
    · exact ⟨hle, Or.inl hlt⟩
  · rintro ⟨hle, hlt | rfl⟩
    · exact Or.inr ⟨hle, hlt⟩
    · exact Or.inl rfl

theorem Built.linked_make (h : Built size s nodes) (item : Ptr) :
    Linked Dlist.mk (makeDlist s.mem item).1 none nodes none :=
  h.linked.congr fun _ ha => s.mem.read_alloc_ne _ (ne_of_mem_of_not_mem ha h.fresh)

theorem size_makeDlist (mem : Mem Ptr) (item : Ptr) : (makeDlist mem item).1.size = mem.size + 1 :=
  mem.size_alloc _

theorem read_makeDlist (mem : Mem Ptr) (item : Ptr) : (makeDlist mem item).1.read mem.size = some ⟨item, none, none⟩ :=
  mem.read_alloc_self _

/-- A first node. -/
theorem Built.first (h : Built size s []) (item : Ptr) :
    Built size ⟨(makeDlist s.mem item).1, some s.mem.size, [item]⟩ [(s.mem.size, item)] where
  items := rfl
  distinct := List.nodup_singleton _
  made := h.made_next (by simp) (size_makeDlist s.mem item)
  size_le := by
    show size ≤ (makeDlist s.mem item).1.size
    rw [size_makeDlist]
    exact Nat.le_succ_of_le h.size_le
  head := rfl
  linked := ⟨read_makeDlist s.mem item, trivial⟩

theorem Built.prepend (h : Built size s nodes) (item : Ptr) :
    ∃ mem' head, Lists.prepend s.mem s.head item = some (mem', head) ∧
      Built size ⟨mem', head, item :: s.items⟩ ((s.mem.size, item) :: nodes) := by
  cases nodes with
  | nil =>
    have hhead : s.head = none := h.head
    have hitems : s.items = [] := h.items.symm
    refine ⟨(makeDlist s.mem item).1, some s.mem.size, ?_, ?_⟩
    · rw [Lists.prepend, hhead]
      rfl
    · rw [hitems]
      exact h.first item
  | cons x nodes =>
    have hhead : s.head = some x.1 := h.head
    have hfresh := h.fresh
    have hne : s.mem.size ≠ x.1 := (ne_of_mem_of_not_mem (by simp) hfresh).symm
    have hread := read_makeDlist s.mem item
    let mem₁ := (makeDlist s.mem item).1.set s.mem.size (some ⟨item, some x.1, none⟩)
    have hold : Linked Dlist.mk mem₁ none (x :: nodes) none := (h.linked_make item).set_of_not_mem hfresh _
    have hnew := hold.relink_first (List.nodup_cons.mp h.distinct).1 (some s.mem.size)
    have hwrite : (makeDlist s.mem item).1.write s.mem.size ⟨item, some x.1, none⟩ = some mem₁ :=
      Memory.write_live hread _
    have hx := hold.1
    have hsize : (mem₁.set x.1 (some ⟨x.2, headPtr nodes none, some s.mem.size⟩)).size = s.mem.size + 1 := by
      rw [Memory.size_set, Memory.size_set, size_makeDlist]
    refine ⟨mem₁.set x.1 (some ⟨x.2, headPtr nodes none, some s.mem.size⟩), some s.mem.size, ?_, ?_⟩
    · simp [Lists.prepend, hhead, hread, hwrite, hx, Memory.write_live hx]
    · refine ⟨?_, List.nodup_cons.mpr ⟨hfresh, h.distinct⟩, h.made_next (by simp) hsize, ?_, rfl, ?_, hnew⟩
      · rw [List.map_cons, h.items]
      · show size ≤ (mem₁.set x.1 _).size
        have hle := h.size_le
        omega
      · rw [Memory.read_set_ne _ hne]
        exact Memory.read_set_self hread _

theorem Built.dlistAppend (h : Built size s nodes) (item : Ptr) :
    ∃ mem' head, Lists.dlistAppend s.mem s.head item = some (mem', head) ∧
      Built size ⟨mem', head, s.items ++ [item]⟩ (nodes ++ [(s.mem.size, item)]) := by
  rcases List.eq_nil_or_concat' nodes with rfl | ⟨ys, y, rfl⟩
  · have hhead : s.head = none := h.head
    have hitems : s.items = [] := h.items.symm
    refine ⟨(makeDlist s.mem item).1, some s.mem.size, ?_, ?_⟩
    · rw [hhead]
      rfl
    · rw [hitems]
      exact h.first item
  · obtain ⟨a, ha⟩ := headPtr_concat ys y none
    have hhead : s.head = some a := h.head.trans ha
    have hfresh := h.fresh
    have hlength := h.length_le
    rw [List.length_append, List.length_singleton] at hlength
    have hlast := (nodup_concat h.distinct).2
    have hne : s.mem.size ≠ y.1 := (ne_of_mem_of_not_mem (by simp) hfresh).symm
    have htail : findTail Dlist.next s.mem (s.mem.size + 1) a = some y.1 := findTail_spec (fun _ _ _ => rfl) h.linked ha (by omega)
    have hmake := h.linked_make item
    have hy := (linked_concat.mp hmake).2
    have hread := read_makeDlist s.mem item
    let mem₁ := (makeDlist s.mem item).1.set y.1 (some ⟨y.2, some s.mem.size, lastPtr none ys⟩)
    have hwrite : (makeDlist s.mem item).1.write y.1 ⟨y.2, some s.mem.size, lastPtr none ys⟩ = some mem₁ :=
      Memory.write_live hy _
    have hnew : Linked Dlist.mk mem₁ none (ys ++ [y]) (some s.mem.size) := hmake.relink_last hlast _
    have hitem : mem₁.read s.mem.size = some ⟨item, none, none⟩ := (Memory.read_set_ne _ hne _).trans hread
    have hsize : (mem₁.set s.mem.size (some ⟨item, none, some y.1⟩)).size = s.mem.size + 1 := by
      rw [Memory.size_set, Memory.size_set, size_makeDlist]
    refine ⟨mem₁.set s.mem.size (some ⟨item, none, some y.1⟩), some a, ?_, ?_⟩
    · simp [Lists.dlistAppend, hhead, htail, hy, hwrite, hitem, Memory.write_live hitem]
    · refine ⟨?_, ?_, h.made_next (by simp; tauto) hsize, ?_, ?_, linked_concat.mpr ⟨?_, ?_⟩⟩
      · rw [List.map_append, h.items]
        rfl
      · rw [List.map_append, List.nodup_append]
        refine ⟨h.distinct, by simp, fun b hb c hc => ?_⟩
        rw [List.map_singleton, List.mem_singleton] at hc
        rw [hc]
        exact ne_of_mem_of_not_mem hb hfresh
      · show size ≤ (mem₁.set s.mem.size _).size
        have hle := h.size_le
        omega
      · rw [headPtr_append, ← ha, headPtr_append, headPtr_append]
        rfl
      · exact hnew.set_of_not_mem hfresh _
      · rw [lastPtr_concat]
        exact Memory.read_set_self hitem _

/-- The first append to a chain. -/
theorem Built.datchainAppend (h : Built size s nodes) (hhead : s.head = none) (item : Ptr) :
    ∃ mem' head, Lists.datchainAppend s.mem s.head item = some (mem', head) ∧
      Built size ⟨mem', head, s.items ++ [item]⟩ [(s.mem.size, item)] := by
  have hnodes : nodes = [] := headPtr_eq_none_iff.mp (h.head.symm.trans hhead)
  subst hnodes
  have hitems : s.items = [] := h.items.symm
  refine ⟨(makeDlist s.mem item).1, some s.mem.size, ?_, ?_⟩
  · rw [Lists.datchainAppend, hhead]
    rfl
  · rw [hitems]
    exact h.first item

/-- An append to a chain with nodes links the item itself, and no node for it. -/
theorem Built.datchainAppend_breaks (h : Built size s nodes) (hhead : s.head ≠ none) (item : Ptr) {mem' : Mem Ptr}
    {head : Ptr} (hstep : Lists.datchainAppend s.mem s.head item = some (mem', head)) (nodes' : List (Addr × Ptr)) :
    ¬ WellLinked .datchain size ⟨mem', head, s.items ++ [item]⟩ nodes' := by
  intro hgood
  rcases List.eq_nil_or_concat' nodes with rfl | ⟨ys, y, rfl⟩
  · exact absurd h.head hhead
  · obtain ⟨a, ha⟩ := headPtr_concat ys y none
    have hsome : s.head = some a := h.head.trans ha
    have hlength := h.length_le
    rw [List.length_append, List.length_singleton] at hlength
    have hmake := h.linked_make item
    have hy := (linked_concat.mp hmake).2
    have htail : findTail Dlist.next (makeDlist s.mem item).1 ((makeDlist s.mem item).1.size + 1) a = some y.1 :=
      findTail_spec (fun _ _ _ => rfl) hmake ha (by rw [size_makeDlist]; omega)
    have hne : s.mem.size ≠ y.1 := (ne_of_mem_of_not_mem (by simp) h.fresh).symm
    rw [hsome] at hstep
    simp only [Lists.datchainAppend, makeDatchain, htail, hy, Memory.write_live hy, Option.bind_eq_bind,
      Option.bind_some, Option.some.injEq, Prod.mk.injEq] at hstep
    obtain ⟨rfl, rfl⟩ := hstep
    -- Two walks of the same cells: the old nodes and the item, and what should be the new nodes.
    have hold := hmake.relink_last (nodup_concat h.distinct).2 item
    have hcell : ∀ (u v : Ptr) n n' p p', Dlist.mk u n p = Dlist.mk v n' p' → u = v ∧ n = n' := by
      intro u v n n' p p' he
      cases he
      exact ⟨rfl, rfl⟩
    have hmore : nodes'.length = (ys ++ [y]).length + 1 := by
      have hitems := congrArg List.length hgood.items
      rw [← h.items, List.length_map, List.length_append, List.length_map, List.length_singleton] at hitems
      exact hitems
    have hfirst : headPtr (ys ++ [y]) item = headPtr nodes' none := by
      rw [← hgood.head, ← ha, headPtr_append, headPtr_append]
      rfl
    obtain ⟨rest, rfl, -⟩ := hold.unique_prefix hcell hgood.linked hfirst (by omega)
    rw [List.length_append, Nat.add_left_cancel_iff] at hmore
    obtain ⟨z, rfl⟩ := List.length_eq_one_iff.mp hmore
    have hz := (linked_concat.mp hgood.linked).2
    rw [lastPtr_concat] at hz
    have hnew := (nodup_concat hgood.distinct).2
    have hlt : z.1 < s.mem.size + 1 := by
      have hlive := Memory.lt_size_of_read hz
      rwa [Memory.size_set, size_makeDlist] at hlive
    -- The last of these can only be the cell that was left where it was made.
    rcases Nat.lt_succ_iff_lt_or_eq.mp hlt with hlt | he
    · exact hnew ((h.made z.1).mpr ⟨hgood.made z.1 (by simp), hlt⟩)
    · rw [he, Memory.read_set_ne _ hne, read_makeDlist] at hz
      cases hz

/-! ## Runs -/

theorem prepend_built (kind : Kind) (item : Ptr) (h : ∃ nodes, Built size s nodes) :
    ∃ s' u, listStep kind s (.prepend item) = some (s', u) ∧ ∃ nodes, Built size s' nodes := by
  obtain ⟨nodes, h⟩ := h
  obtain ⟨mem', head, hrun, hnext⟩ := h.prepend item
  have hkind : kind.prepend s.mem s.head item = some (mem', head) := by
    cases kind with
    | datchain => exact hrun
    | dlist => exact hrun
  exact ⟨⟨mem', head, item :: s.items⟩, (), by rw [listStep, hkind]; rfl, _, hnext⟩

theorem dlistStep_built (h : ∃ nodes, Built size s nodes) (op : ListOp) :
    ∃ s' u, listStep .dlist s op = some (s', u) ∧ ∃ nodes, Built size s' nodes := by
  cases op with
  | prepend item => exact prepend_built .dlist item h
  | append item =>
    obtain ⟨nodes, h⟩ := h
    obtain ⟨mem', head, hrun, hnext⟩ := h.dlistAppend item
    exact ⟨⟨mem', head, s.items ++ [item]⟩, (), by rw [listStep, Kind.append, hrun]; rfl, _, hnext⟩

theorem datchainStep_built {op : ListOp} (h : ∃ nodes, Built size s nodes) (hop : Linkable s op) :
    ∃ s' u, listStep .datchain s op = some (s', u) ∧ ∃ nodes, Built size s' nodes := by
  cases op with
  | prepend item => exact prepend_built .datchain item h
  | append item =>
    obtain ⟨nodes, h⟩ := h
    obtain ⟨mem', head, hrun, hnext⟩ := h.datchainAppend hop item
    exact ⟨⟨mem', head, s.items ++ [item]⟩, (), by rw [listStep, Kind.append, hrun]; rfl, _, hnext⟩

theorem datchainStep_breaks {op : ListOp} {s' : Compared} {u : Unit} (h : ∃ nodes, Built size s nodes)
    (hop : ¬ Linkable s op) (hstep : listStep .datchain s op = some (s', u)) :
    ¬ ∃ nodes, WellLinked .datchain size s' nodes := by
  obtain ⟨nodes, h⟩ := h
  rintro ⟨nodes', hgood⟩
  cases op with
  | prepend item => exact hop trivial
  | append item =>
    obtain ⟨r, hrun, he⟩ := Option.map_eq_some_iff.mp hstep
    cases he
    exact h.datchainAppend_breaks hop item hrun nodes' hgood

/-- A list that starts without nodes, in any memory: after each of any appends and prepends a
`dlist_t` is well linked; a `datchain_t` is just when no append went to a chain with a node. -/
theorem lists_well_linked_iff (mem : Mem Ptr) (ops : List ListOp) :
    (∀ k, ∃ s os, run (listStep .dlist) ⟨mem, none, []⟩ (ops.take k) = some (s, os) ∧
      ∃ nodes, WellLinked .dlist mem.size s nodes) ∧
    ((∀ k, ∃ s os, run (listStep .datchain) ⟨mem, none, []⟩ (ops.take k) = some (s, os) ∧
      ∃ nodes, WellLinked .datchain mem.size s nodes) ↔
      Guarded (listStep .datchain) Linkable ⟨mem, none, []⟩ ops) := by
  have hinit : ∃ nodes, Built mem.size ⟨mem, none, []⟩ nodes :=
    ⟨[], rfl, List.nodup_nil, by simp, Nat.le_refl _, rfl, trivial⟩
  constructor
  · intro k
    obtain ⟨s, os, hrun, nodes, h⟩ :=
      run_total (fun s op h _ => dlistStep_built h op) hinit (guarded_trivial _ (ops.take k))
    exact ⟨s, os, hrun, nodes, h.wellLinked .dlist⟩
  · exact returns_iff_guarded (fun s h => h.elim fun nodes h => ⟨nodes, h.wellLinked .datchain⟩)
      (fun s op h hop => datchainStep_built h hop) (fun s op s' u h hop hstep => datchainStep_breaks h hop hstep)
      hinit ops

/-- Two items that point at nothing: the second append leaves its node at address 1, and the
first node goes on at the item. -/
theorem second_append_links_item :
    ∃ s os, run (listStep .datchain) ⟨⟨[]⟩, none, []⟩ [.append (some 7), .append (some 8)] = some (s, os) ∧
      s.mem.read 0 = some ⟨some 7, some 8, none⟩ ∧ s.mem.read 1 = some ⟨some 8, none, none⟩ ∧
      datchainForeach s.mem s.head = none ∧ ¬ ∃ nodes, WellLinked .datchain 0 s nodes := by
  refine ⟨_, _, rfl, rfl, rfl, rfl, ?_⟩
  rintro ⟨nodes, h⟩
  exact absurd h.visited nofun

end Devclego.Lists
