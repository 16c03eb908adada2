import Devclego.Tree.Recycling

/-!
# Taking nodes out of the tree

`_pop_from_tree` and `_deref_from_tree` share the search, the unlinking of a
node with at most one child and the replacement by the in-order predecessor.
The results speak about the nodes in order: a node of the list leaves it. Which
memory cell leaves the links is another matter, recorded by `unlinkedRef`,
because the duplicate counter follows that cell.
-/
namespace Devclego.Tree

open Foundation Puffers

variable {D : Type} {cmp : D → D → Int} {this : Bintree D} {mem : Mem D}
  {t : Shape (Stored D)} {q : List Addr}

/-- The `ref` of the node that holds `data`. -/
def storedRef (cmp : D → D → Int) (this : Bintree D) (mem : Mem D) (data : D) : Option Int32 := do
  let (node, _) ← searchValue cmp this mem data
  let n ← mem.load node
  some n.ref

/-- The `ref` of the cell that leaves the links when `data` is removed: the node
itself, or its in-order predecessor when the node has two children. -/
def unlinkedRef (cmp : D → D → Int) (this : Bintree D) (mem : Mem D) (data : D) : Option Int32 := do
  let (node, _) ← searchValue cmp this mem data
  let n ← mem.load node
  match n.left, n.right with
  | some left, some _ =>
    let candidate ← getRightestValue mem (some left)
    let c ← mem.load candidate
    some c.ref
  | _, _ => some n.ref

/-- The state after a node has been handed to the caller. -/
structure Popped (cmp : D → D → Int) (this : Bintree D) (mem : Mem D) (t : Shape (Stored D)) (q : List Addr)
    (this' : Bintree D) (mem' : Mem D) (t' : Shape (Stored D)) (b : Addr) (e : Stored D) : Prop where
  represents : Represents cmp this' mem' t' q
  sharp : Sharp this t → Sharp this' t'
  node : mem'.read b = some (nodeCell e none none)
  fresh : b ∉ t'.addrs ++ q
  outside : mem'.outside (b :: (t'.addrs ++ q)) = mem.outside (t.addrs ++ q)

theorem Represents.withDuplicates (h : Represents cmp this mem t q) (c : Int32) :
    Represents cmp { this with duplicateCounter := c } mem t q :=
  ⟨h.root, h.top, h.bottom, h.count, h.quiet, h.holds, h.increasing, h.recycle, h.pooled, h.distinct⟩

/-! ## Nodes with at most one child -/

/-- The subtree that takes the place of a node with at most one child. -/
def OnlyChild (l r c : Shape (Stored D)) : Prop := (l = .nil ∧ c = r) ∨ (r = .nil ∧ c = l)

theorem OnlyChild.inorder {l r c : Shape (Stored D)} (h : OnlyChild l r c) :
    c.inorder = l.inorder ++ r.inorder := by
  rcases h with ⟨rfl, rfl⟩ | ⟨rfl, rfl⟩
  · rfl
  · simp

theorem unlinkNode_spec {k : Trail (Stored D)} {a : Addr} {v : Stored D} {l r c : Shape (Stored D)}
    (h : (Trail.plug k (.node a v l r)).Holds nodeCell mem)
    (hn : (Trail.plug k (.node a v l r)).addrs.Nodup)
    (hroot : this.root = (Trail.plug k (.node a v l r)).ptr) (hc : OnlyChild l r c) :
    ∃ mem', unlinkNode this mem k.parent a c.ptr =
        some ({ this with root := (Trail.plug k c).ptr }, mem') ∧
      (Trail.plug k c).Holds nodeCell mem' ∧
      ∀ b, b ∉ Trail.addrs k → mem'.read b = mem.read b := by
  obtain ⟨⟨ha, hl, hr⟩, hk⟩ := (Trail.holds_plug k _).mp h
  have hcm : c.Holds nodeCell mem := by
    rcases hc with ⟨-, rfl⟩ | ⟨-, rfl⟩
    · exact hr
    · exact hl
  cases k with
  | nil => exact ⟨mem, rfl, hcm, fun _ _ => rfl⟩
  | cons s k =>
    have hsame : ({ this with root := (Trail.plug (s :: k) c).ptr } : Bintree D) = this := by
      rw [Trail.ptr_plug_cons s k c (.node a v l r), ← hroot]
    obtain ⟨hst, hside, hsk⟩ := Trail.addr_fresh hn
    have hsc : s.addr ∉ c.addrs := by
      intro hm
      rw [Shape.addrs, hc.inorder, List.map_append, List.mem_append] at hm
      apply hst
      rw [Shape.addrs_node]
      rcases hm with hm | hm
      · exact List.mem_append_left _ hm
      · exact List.mem_append_right _ (List.mem_cons_of_mem _ hm)
    have hread := hk.1
    refine ⟨mem.set s.addr (some (s.link nodeCell c.ptr)), ?_, ?_, ?_⟩
    · rw [hsame]
      cases s with
      | goLeft p w y =>
        simp only [Crumb.addr, Crumb.link] at hread
        simp [unlinkNode, Trail.parent, Crumb.addr, Crumb.link, hread, nodeCell, Memory.write_live hread]
      | goRight p w y =>
        simp only [Crumb.addr, Crumb.link] at hread
        have hne : y.ptr ≠ some a := by
          intro he
          have hay : a ∈ (Crumb.goRight p w y).side.addrs := Shape.mem_addrs_of_ptr he
          exact (Trail.disjoint_focus hn).2 (by simp) (Trail.mem_addrs_cons.mpr (Or.inr (Or.inl hay)))
        simp [unlinkNode, Trail.parent, Crumb.addr, Crumb.link, hread, nodeCell, Memory.write_live hread,
          hne]
    · refine (Trail.holds_plug _ _).mpr ⟨hcm.set_of_not_mem hsc _, hk.relink _ hn⟩
    · intro b hb
      exact mem.read_set_ne (fun he => hb (Trail.mem_addrs_cons.mpr (Or.inl he))) _

/-- Unlinking and then repairing the caches represents the shorter tree; the node
itself keeps its contents and belongs to nobody yet. -/
theorem Represents.unlink {k : Trail (Stored D)} {a : Addr} {v : Stored D} {l r c : Shape (Stored D)}
    (h : Represents cmp this mem (Trail.plug k (.node a v l r)) q) (hc : OnlyChild l r c) :
    ∃ mem', unlinkNode this mem k.parent a c.ptr =
        some ({ this with root := (Trail.plug k c).ptr }, mem') ∧
      (Trail.plug k c).Holds nodeCell mem' ∧
      (∀ top bottom, Cached top (Trail.plug k c).addrs → Cached bottom (Trail.plug k c).addrs →
        Represents cmp { this with
          root := (Trail.plug k c).ptr
          top := top
          bottom := bottom
          nodeCounter := this.nodeCounter - 1 } mem' (Trail.plug k c) q) ∧
      mem'.read a = some (nodeCell v l.ptr r.ptr) ∧ l.Holds nodeCell mem' ∧ r.Holds nodeCell mem' ∧
      a ∉ (Trail.plug k c).addrs ++ q ∧
      mem'.outside (a :: ((Trail.plug k c).addrs ++ q)) =
        mem.outside ((Trail.plug k (.node a v l r)).addrs ++ q) := by
  obtain ⟨mem', he, hholds, hag⟩ := unlinkNode_spec h.holds h.nodup h.root hc
  obtain ⟨⟨ha, hl, hr⟩, hk⟩ := (Trail.holds_plug k _).mp h.holds
  obtain ⟨hnode, hdisj⟩ := Trail.disjoint_focus h.nodup
  have hfocus : ∀ b ∈ (Shape.node a v l r).addrs, mem'.read b = mem.read b :=
    fun b hb => hag b fun hbk => hdisj hb hbk
  have hinorder : (Trail.plug k c).inorder = (k.before ++ l.inorder) ++ (r.inorder ++ k.after) := by
    simp [Trail.inorder_plug, hc.inorder]
  have hsplit := Trail.focus_inorder k a v l r
  have haddrs : (Trail.plug k (.node a v l r)).addrs ++ q =
      (k.before ++ l.inorder).map Prod.fst ++ a :: ((r.inorder ++ k.after).map Prod.fst ++ q) := by
    simp [Shape.addrs, hsplit]
  have haddrs' : (Trail.plug k c).addrs ++ q =
      (k.before ++ l.inorder).map Prod.fst ++ ((r.inorder ++ k.after).map Prod.fst ++ q) := by
    simp [Shape.addrs, hinorder]
  have hmid := h.distinct
  rw [haddrs, List.nodup_middle, List.nodup_cons, ← haddrs'] at hmid
  have hq : ∀ b ∈ q, mem'.read b = mem.read b := by
    intro b hb
    exact hag b fun hbk => h.apart (Trail.mem_addrs_plug.mpr (Or.inr hbk)) hb
  have hsize : (Trail.plug k (.node a v l r)).size = (Trail.plug k c).size + 1 := by
    simp only [Shape.size, hsplit, hinorder, List.length_append, List.length_cons]
    omega
  refine ⟨mem', he, hholds, fun top bottom htop hbottom => ?_, (hfocus a (by simp)).trans ha, ?_, ?_, hmid.1, ?_⟩
  · constructor
    · rfl
    · exact htop
    · exact hbottom
    · change this.nodeCounter - 1 = _
      rw [h.count, hsize, ofNat_succ, Int32.add_sub_cancel]
    · exact h.quiet
    · exact hholds
    · rw [hinorder]
      exact (hsplit ▸ h.increasing).remove
    · exact h.recycle
    · intro b hb
      rw [hq b hb]
      exact h.pooled b hb
    · exact hmid.2
  · exact hl.congr fun b hb => hfocus b (by simp [hb])
  · exact hr.congr fun b hb => hfocus b (by simp [hb])
  · have hag' : mem'.outside ((Trail.plug k (.node a v l r)).addrs ++ q) =
        mem.outside ((Trail.plug k (.node a v l r)).addrs ++ q) := by
      apply Memory.outside_eq_of_agree
      intro b hb
      exact hag b fun hbk => hb (List.mem_append_left _ (Trail.mem_addrs_plug.mpr (Or.inr hbk)))
    rw [← hag', haddrs, haddrs']
    apply Memory.outside_congr
    intro b
    simp only [List.mem_cons, List.mem_append]
    tauto

/-- The caches after an unlink, whether or not the node's own pointers were
cleared before the repair. -/
theorem refresh_unlinked {k : Trail (Stored D)} {a : Addr} {v : Stored D} {l r c x y : Shape (Stored D)}
    {n : Bintreenode D} {root : Ptr} {mem' : Mem D}
    (h : Represents cmp this mem (Trail.plug k (.node a v l r)) q) (hc : OnlyChild l r c)
    (hroot : root = (Trail.plug k c).ptr) (hholds : (Trail.plug k c).Holds nodeCell mem')
    (hn : mem'.read a = some n) (hleft : n.left = x.ptr) (hright : n.right = y.ptr)
    (hx : x.Holds nodeCell mem') (hy : y.Holds nodeCell mem')
    (hxl : x = .nil ∨ x = l) (hyr : y = .nil ∨ y = r) (count dups : Int32) :
    ∃ top bottom, refreshExtremes
        { this with root := root, nodeCounter := count, duplicateCounter := dups } mem' a =
      some { this with
        root := root
        nodeCounter := count
        duplicateCounter := dups
        top := top
        bottom := bottom } ∧
      Repaired this (Trail.plug k (.node a v l r)).addrs (Trail.plug k c).addrs top bottom := by
  have haddrs : (Trail.plug k (.node a v l r)).addrs =
      (k.before.map Prod.fst ++ l.addrs) ++ a :: (r.addrs ++ k.after.map Prod.fst) := by
    simp [Trail.addrs_plug]
  have haddrs' : (Trail.plug k c).addrs =
      (k.before.map Prod.fst ++ l.addrs) ++ (r.addrs ++ k.after.map Prod.fst) := by
    simp [Shape.addrs, Trail.inorder_plug, hc.inorder]
  have hnodup := h.nodup
  have htop := h.top
  have hbot := h.bottom
  rw [haddrs] at hnodup htop hbot ⊢
  let unlinked : Bintree D := { this with root := root, nodeCounter := count, duplicateCounter := dups }
  have hroot' : unlinked.root = (Trail.plug k c).ptr := hroot
  have hlsub : ∃ x', k.before.map Prod.fst ++ l.addrs = x' ++ x.addrs := by
    rcases hxl with rfl | rfl
    · exact ⟨k.before.map Prod.fst ++ l.addrs, by simp⟩
    · exact ⟨k.before.map Prod.fst, rfl⟩
  have hrsub : ∃ y', r.addrs ++ k.after.map Prod.fst = y.addrs ++ y' := by
    rcases hyr with rfl | rfl
    · exact ⟨r.addrs ++ k.after.map Prod.fst, by simp⟩
    · exact ⟨k.after.map Prod.fst, rfl⟩
  obtain ⟨top, bottom, hrun, hcaches⟩ :=
    refreshExtremes_spec hn hleft hright hx hy hroot' hholds hnodup haddrs' htop hbot hlsub hrsub
  exact ⟨top, bottom, hrun, hcaches.top_cached, hcaches.bottom_cached, hcaches.top_sharp, hcaches.bottom_sharp⟩

theorem popRemove_spec {k : Trail (Stored D)} {a : Addr} {v : Stored D} {l r c : Shape (Stored D)}
    (h : Represents cmp this mem (Trail.plug k (.node a v l r)) q) (hc : OnlyChild l r c) :
    ∃ this' mem', popRemove this mem k.parent a c.ptr = some (this', mem', some a) ∧
      Popped cmp this mem (Trail.plug k (.node a v l r)) q this' mem' (Trail.plug k c) a v ∧
      this'.duplicateCounter = this.duplicateCounter - (v.ref - 1) := by
  obtain ⟨mem1, he, hholds, hrep, hread, -, -, hfresh, hout⟩ := h.unlink hc
  have hread2 : (mem1.set a (some (nodeCell v none none))).read a = some (nodeCell v none none) :=
    Memory.read_set_self hread _
  have hag : ∀ b ∈ (Trail.plug k c).addrs ++ q,
      (mem1.set a (some (nodeCell v none none))).read b = mem1.read b :=
    fun b hb => mem1.read_set_ne (ne_of_mem_of_not_mem hb hfresh) _
  have hholds2 := hholds.congr fun b hb => hag b (List.mem_append_left q hb)
  obtain ⟨top, bottom, href, hcaches⟩ := refresh_unlinked (x := .nil) (y := .nil) h hc rfl hholds2 hread2 rfl rfl
    trivial trivial (Or.inl rfl) (Or.inl rfl) (this.nodeCounter - 1)
    (this.duplicateCounter - (v.ref - 1))
  have hrep2 := (hrep top bottom hcaches.top_cached hcaches.bottom_cached).congr hag
  refine ⟨_, mem1.set a (some (nodeCell v none none)), ?_,
    ⟨hrep2.withDuplicates (this.duplicateCounter - (v.ref - 1)),
      fun hs => ⟨hcaches.top_sharp hs.top, hcaches.bottom_sharp hs.bottom⟩, hread2, hfresh, ?_⟩, rfl⟩
  · simp only [popRemove, he, Option.bind_eq_bind, Option.bind_some, hread, nodeCell] at href ⊢
    rw [Memory.write_live hread]
    simp only [Option.bind_some]
    rw [href]
    rfl
  · rw [Memory.outside_set mem1 (by simp), hout]

theorem derefRemove_spec {k : Trail (Stored D)} {a : Addr} {v : Stored D} {l r c : Shape (Stored D)}
    (h : Represents cmp this mem (Trail.plug k (.node a v l r)) q) (hc : OnlyChild l r c) :
    ∃ this' mem' q', derefRemove this mem k.parent a c.ptr = some (this', mem') ∧
      Represents cmp this' mem' (Trail.plug k c) q' ∧
      (Sharp this (Trail.plug k (.node a v l r)) → Sharp this' (Trail.plug k c)) ∧
      mem'.outside ((Trail.plug k c).addrs ++ q') =
        mem.outside ((Trail.plug k (.node a v l r)).addrs ++ q) ∧
      this'.duplicateCounter = this.duplicateCounter := by
  obtain ⟨mem1, he, hholds, hrep, hread, hl, hr, hfresh, hout⟩ := h.unlink hc
  -- the unlinked node still points at its child when the caches are repaired
  obtain ⟨top, bottom, href, hcaches⟩ := refresh_unlinked h hc rfl hholds hread rfl rfl hl hr (Or.inr rfl) (Or.inr rfl)
    this.nodeCounter this.duplicateCounter
  obtain ⟨recycle, mem2, q', ht, hrep', hout'⟩ :=
    (hrep top bottom hcaches.top_cached hcaches.bottom_cached).trash href hread hfresh
  refine ⟨_, mem2, q', ?_, hrep', fun hs => ⟨hcaches.top_sharp hs.top, hcaches.bottom_sharp hs.bottom⟩,
    hout'.trans hout, rfl⟩
  simp only [derefRemove, he, Option.bind_eq_bind, Option.bind_some, ht]

/-! ## Nodes with two children -/

/-- Overwriting what one node stores, its links untouched. -/
theorem Represents.rewrite {x y : List (Addr × Stored D)} {a : Addr} {v : Stored D}
    (h : Represents cmp this mem t q) (ht : t.inorder = x ++ (a, v) :: y) (w : Stored D)
    (hinc : Increasing cmp nodeKey (x ++ (a, w) :: y)) :
    ∃ t' left right, t'.inorder = x ++ (a, w) :: y ∧ t'.addrs = t.addrs ∧
      mem.read a = some (nodeCell v left right) ∧
      Represents cmp this (mem.set a (some (nodeCell w left right))) t' q := by
  obtain ⟨k, l, r, rfl⟩ := Trail.exists_plug (show (a, v) ∈ t.inorder by simp [ht])
  obtain ⟨⟨ha, hl, hr⟩, hk⟩ := (Trail.holds_plug k _).mp h.holds
  obtain ⟨hnode, hdisj⟩ := Trail.disjoint_focus h.nodup
  have hsplit := Trail.focus_inorder k a v l r
  obtain ⟨hx, -, hy⟩ := split_unique (by rw [← hsplit]; exact h.nodup) (hsplit.symm.trans ht)
  have hinorder : (Trail.plug k (.node a w l r)).inorder = x ++ (a, w) :: y := by
    rw [Trail.focus_inorder, hx, hy]
  have haddrs : (Trail.plug k (.node a w l r)).addrs = (Trail.plug k (.node a v l r)).addrs := by
    simp [Trail.addrs_plug]
  rw [Shape.addrs_node] at hnode
  have hal : a ∉ l.addrs := fun hm =>
    (List.nodup_append.mp hnode).2.2 a hm a (by simp) rfl
  have har : a ∉ r.addrs := (List.nodup_cons.mp (List.nodup_append.mp hnode).2.1).1
  have hak : a ∉ Trail.addrs k := fun hm => hdisj (by simp) hm
  have haq : a ∉ q := fun hm => h.apart (Trail.mem_addrs_plug.mpr (Or.inl (by simp))) hm
  refine ⟨Trail.plug k (.node a w l r), l.ptr, r.ptr, hinorder, haddrs, ha, ?_⟩
  constructor
  · rw [h.root]
    cases k with
    | nil => rfl
    | cons c k => exact Trail.ptr_plug_cons c k _ _
  · rw [haddrs]
    exact h.top
  · rw [haddrs]
    exact h.bottom
  · rw [h.count, ← Shape.length_addrs, ← Shape.length_addrs, haddrs]
  · exact h.quiet
  · refine (Trail.holds_plug k _).mpr ⟨⟨Memory.read_set_self ha _, hl.set_of_not_mem hal _,
      hr.set_of_not_mem har _⟩, hk.congr fun b hb => mem.read_set_ne (ne_of_mem_of_not_mem hb hak) _⟩
  · rw [hinorder]
    exact hinc
  · exact h.recycle
  · intro b hb
    rw [mem.read_set_ne (ne_of_mem_of_not_mem hb haq)]
    exact h.pooled b hb
  · rw [haddrs]
    exact h.distinct

/-- The search reads the node it found. -/
theorem Represents.at_focus (order : TotalOrder cmp) {data : D} {k : Trail (Stored D)} {a : Addr}
    {v : Stored D} {l r : Shape (Stored D)} (h : Represents cmp this mem (Trail.plug k (.node a v l r)) q)
    (hdata : cmp data v.data = 0) :
    searchValue cmp this mem data = some (some a, k.parent) ∧
      mem.read a = some (nodeCell v l.ptr r.ptr) ∧ storedRef cmp this mem data = some v.ref := by
  have hs := h.search_found order hdata
  have hread := ((Trail.holds_plug k _).mp h.holds).1.1
  exact ⟨hs, hread, by simp [storedRef, hs, hread, nodeCell]⟩

theorem popFromTree_single (order : TotalOrder cmp) {data : D} {k : Trail (Stored D)} {a : Addr}
    {v : Stored D} {l r : Shape (Stored D)} (h : Represents cmp this mem (Trail.plug k (.node a v l r)) q)
    (hdata : cmp data v.data = 0) (hlr : l = .nil ∨ r = .nil) (fuel : Nat) :
    unlinkedRef cmp this mem data = some v.ref ∧
    ∃ this' mem' t', popFromTree cmp (fuel + 1) this mem data = some (this', mem', some a) ∧
      Popped cmp this mem (Trail.plug k (.node a v l r)) q this' mem' t' a v ∧
      t'.inorder = (k.before ++ l.inorder) ++ (r.inorder ++ k.after) ∧
      this'.duplicateCounter = this.duplicateCounter - (v.ref - 1) := by
  obtain ⟨hs, hread, -⟩ := h.at_focus order hdata
  obtain ⟨c, hc, hcase⟩ : ∃ c, OnlyChild l r c ∧
      popFromTree cmp (fuel + 1) this mem data = popRemove this mem k.parent a c.ptr ∧
      unlinkedRef cmp this mem data = some v.ref := by
    rcases hlr with rfl | rfl
    · refine ⟨r, Or.inl ⟨rfl, rfl⟩, ?_⟩
      cases r <;> simp [popFromTree, unlinkedRef, hs, hread, nodeCell]
    · refine ⟨l, Or.inr ⟨rfl, rfl⟩, ?_⟩
      cases l <;> simp [popFromTree, unlinkedRef, hs, hread, nodeCell]
  obtain ⟨this', mem', he, hpop, hdup⟩ := popRemove_spec h hc
  refine ⟨hcase.2, this', mem', Trail.plug k c, hcase.1.trans he, hpop, ?_, hdup⟩
  simp [Trail.inorder_plug, hc.inorder]

/-- With two children the in-order predecessor is popped first and its entry
moves into the node; the popped cell is still in hand. -/
theorem predecessor_moved (order : TotalOrder cmp) {data : D} {k : Trail (Stored D)} {a : Addr}
    {v : Stored D} {l r : Shape (Stored D)} (h : Represents cmp this mem (Trail.plug k (.node a v l r)) q)
    (hdata : cmp data v.data = 0) (hl : l ≠ .nil) (hr : r ≠ .nil) :
    ∃ c cv lc rc, l.inorder.getLast? = some (c, cv) ∧
      getRightestValue mem l.ptr = some (some c) ∧ mem.read c = some (nodeCell cv lc rc) ∧
      unlinkedRef cmp this mem data = some cv.ref ∧
      ∀ fuel, ∃ this' mem1 left right t', popFromTree cmp (fuel + 1) this mem cv.data =
          some (this', mem1, some c) ∧
        mem1.read a = some (nodeCell v left right) ∧ mem1.read c = some (nodeCell cv none none) ∧
        Represents cmp this' (mem1.set a (some (nodeCell cv left right))) t' q ∧
        (Sharp this (Trail.plug k (.node a v l r)) → Sharp this' t') ∧
        t'.vals = (k.before ++ l.inorder).map Prod.snd ++ (r.inorder ++ k.after).map Prod.snd ∧
        a ∈ t'.addrs ∧ c ∉ t'.addrs ++ q ∧
        mem1.outside (c :: (t'.addrs ++ q)) =
          mem.outside ((Trail.plug k (.node a v l r)).addrs ++ q) ∧
        this'.duplicateCounter = this.duplicateCounter - (cv.ref - 1) := by
  obtain ⟨hs, hread, -⟩ := h.at_focus order hdata
  obtain ⟨⟨-, hlm, -⟩, -⟩ := (Trail.holds_plug k _).mp h.holds
  obtain ⟨hnode, -⟩ := Trail.disjoint_focus h.nodup
  have hln : l.addrs.Nodup := (List.nodup_append.mp (Shape.addrs_node a v l r ▸ hnode)).1
  have hlne : l.inorder ≠ [] := fun he => hl (Shape.eq_nil_of_inorder he)
  obtain ⟨x, ⟨c, cv⟩, hx⟩ : ∃ x u, l.inorder = x ++ [u] :=
    ⟨l.inorder.dropLast, l.inorder.getLast hlne, (List.dropLast_append_getLast hlne).symm⟩
  obtain ⟨lc, rc, hreadc⟩ := hlm.read (show (c, cv) ∈ l.inorder by simp [hx])
  have hright : getRightestValue mem l.ptr = some (some c) := by
    rw [getRightestValue_spec hlm (hlm.size_le hln)]
    simp [Shape.addrs, hx]
  have hunl : unlinkedRef cmp this mem data = some cv.ref := by
    obtain ⟨b, w, l1, l2, rfl⟩ := Shape.exists_node hl
    obtain ⟨b', w', r1, r2, rfl⟩ := Shape.exists_node hr
    rw [Shape.ptr_node] at hright
    simp [unlinkedRef, hs, hread, nodeCell, hright, hreadc]
  refine ⟨c, cv, lc, rc, by simp [hx], hright, hreadc, hunl, fun fuel => ?_⟩
  -- the predecessor in focus: it has no right child
  obtain ⟨kl, l2, hkl, hafter⟩ := Trail.exists_plug_last hln hx
  have hfocus : Trail.plug k (.node a v l r) =
      Trail.plug (kl ++ .goLeft a v r :: k) (.node c cv l2 .nil) := by
    rw [Trail.plug_append, ← hkl]
    rfl
  have hsplit : (Trail.plug k (.node a v l r)).inorder =
      (k.before ++ x) ++ (c, cv) :: ((a, v) :: (r.inorder ++ k.after)) := by
    rw [Trail.focus_inorder, hx]
    simp
  have h' := h
  rw [hfocus] at h'
  obtain ⟨-, this1, mem1, t1, he, hpop, hin1, hdup⟩ :=
    popFromTree_single order h' (order.refl cv.data) (Or.inr rfl) fuel
  obtain ⟨hb, -, ha⟩ := split_unique (by rw [← hsplit]; exact h.nodup)
    (hsplit.symm.trans ((congrArg Shape.inorder hfocus).trans (Trail.focus_inorder _ c cv l2 .nil)))
  have ht1 : t1.inorder = (k.before ++ x) ++ (a, v) :: (r.inorder ++ k.after) := by
    rw [hin1, ← hb, ← ha]
  have hinc : Increasing cmp nodeKey ((k.before ++ x) ++ (a, cv) :: (r.inorder ++ k.after)) := by
    have hi := h.increasing
    rw [hsplit] at hi
    have hi' : Increasing cmp nodeKey ((k.before ++ x ++ [(c, cv)]) ++ (a, v) :: (r.inorder ++ k.after)) := by
      simpa using hi
    have hi2 := hi'.remove
    rw [List.append_assoc, List.singleton_append] at hi2
    exact hi2.replace order (order.refl cv.data)
  obtain ⟨t2, left, right, hin2, haddr2, hreada, hrep2⟩ := hpop.represents.rewrite ht1 cv hinc
  refine ⟨this1, mem1, left, right, t2, he, hreada, hpop.node, hrep2, fun hs => ?_, ?_, ?_, ?_, ?_, hdup⟩
  · have hsharp := hpop.sharp (hfocus ▸ hs)
    exact ⟨haddr2 ▸ hsharp.top, haddr2 ▸ hsharp.bottom⟩
  · simp [Shape.vals, hin2, hx]
  · simp [Shape.addrs, hin2]
  · rw [haddr2]
    exact hpop.fresh
  · rw [haddr2, hpop.outside, hfocus]

/-- The unlinked cell stores an entry of the tree. -/
theorem unlinkedRef_mem (order : TotalOrder cmp) {data : D} {u : Int32} (h : Represents cmp this mem t q)
    (hu : unlinkedRef cmp this mem data = some u) : ∃ e ∈ t.vals, e.ref = u := by
  rcases h.search order data with ⟨k, a, v, l, r, rfl, hv⟩ | ⟨-, p, hp⟩
  · by_cases hlr : l = .nil ∨ r = .nil
    · have hunl := (popFromTree_single order h hv hlr 0).1
      cases hunl.symm.trans hu
      exact ⟨v, by simp [Shape.vals, Trail.focus_inorder], rfl⟩
    · obtain ⟨c, cv, lc, rc, hlast, -, -, hunl, -⟩ := predecessor_moved order h hv
        (fun he => hlr (Or.inl he)) fun he => hlr (Or.inr he)
      cases hunl.symm.trans hu
      have hmem := List.mem_of_getLast? hlast
      exact ⟨cv, List.mem_map.mpr ⟨(c, cv), by simp [Trail.focus_inorder, hmem], rfl⟩, rfl⟩
  · simp [unlinkedRef, hp] at hu

/-- Which cell is unlinked depends on the represented tree only. -/
theorem unlinkedRef_congr (order : TotalOrder cmp) {mem' : Mem D} (h : Represents cmp this mem t q)
    (h' : Represents cmp this mem' t q) (data : D) :
    unlinkedRef cmp this mem' data = unlinkedRef cmp this mem data := by
  rcases h.search order data with ⟨k, a, v, l, r, rfl, hv⟩ | ⟨habs, p, hp⟩
  · by_cases hlr : l = .nil ∨ r = .nil
    · rw [(popFromTree_single order h hv hlr 0).1, (popFromTree_single order h' hv hlr 0).1]
    · have hl : l ≠ .nil := fun he => hlr (Or.inl he)
      have hr : r ≠ .nil := fun he => hlr (Or.inr he)
      obtain ⟨c, cv, -, -, hlast, -, -, hunl, -⟩ := predecessor_moved order h hv hl hr
      obtain ⟨c', cv', -, -, hlast', -, -, hunl', -⟩ := predecessor_moved order h' hv hl hr
      cases hlast.symm.trans hlast'
      rw [hunl, hunl']
  · rcases h'.search order data with ⟨k, a, v, l, r, rfl, hv⟩ | ⟨-, p', hp'⟩
    · exact absurd hv (habs (a, v) (by simp [Trail.focus_inorder]))
    · simp [unlinkedRef, hp, hp']

/-! ## Popping -/

/-- `_pop_from_tree` on a stored key: the entry leaves the tree with its whole
multiplicity, in a cell without children. -/
theorem popFromTree_found (order : TotalOrder cmp) {data : D} {x y : List (Addr × Stored D)} {a : Addr}
    {v : Stored D} (h : Represents cmp this mem t q) (ht : t.inorder = x ++ (a, v) :: y)
    (hdata : cmp data v.data = 0) :
    ∃ this' mem' t' b u, popFromTree cmp popDepth this mem data = some (this', mem', some b) ∧
      Popped cmp this mem t q this' mem' t' b v ∧ t'.vals = x.map Prod.snd ++ y.map Prod.snd ∧
      unlinkedRef cmp this mem data = some u ∧
      this'.duplicateCounter = this.duplicateCounter - (u - 1) := by
  obtain ⟨k, l, r, rfl⟩ := Trail.exists_plug (show (a, v) ∈ t.inorder by simp [ht])
  have hsplit := Trail.focus_inorder k a v l r
  obtain ⟨hx, -, hy⟩ := split_unique (by rw [← hsplit]; exact h.nodup) (hsplit.symm.trans ht)
  by_cases hlr : l = .nil ∨ r = .nil
  · obtain ⟨hunl, this', mem', t', he, hpop, hin, hdup⟩ := popFromTree_single order h hdata hlr 1
    refine ⟨this', mem', t', a, v.ref, he, hpop, ?_, hunl, hdup⟩
    simp [Shape.vals, hin, ← hx, ← hy]
  · have hl : l ≠ .nil := fun he => hlr (Or.inl he)
    have hr : r ≠ .nil := fun he => hlr (Or.inr he)
    obtain ⟨hs, hread, -⟩ := h.at_focus order hdata
    obtain ⟨c, cv, lc, rc, -, hright, hreadc, hunl, hinner⟩ := predecessor_moved order h hdata hl hr
    obtain ⟨this', mem1, left, right, t', he, hreada, hreadc1, hrep, hsharp, hvals, hat, hfresh, hout, hdup⟩ :=
      hinner 0
    have hca : c ≠ a := fun he => hfresh (List.mem_append_left _ (he ▸ hat))
    have hreadc2 : (mem1.set a (some (nodeCell cv left right))).read c = some (nodeCell cv none none) := by
      rw [mem1.read_set_ne hca]
      exact hreadc1
    have hag : ∀ b ∈ t'.addrs ++ q, ((mem1.set a (some (nodeCell cv left right))).set c
        (some (nodeCell v none none))).read b = (mem1.set a (some (nodeCell cv left right))).read b :=
      fun b hb => Memory.read_set_ne _ (ne_of_mem_of_not_mem hb hfresh) _
    have href := hrep.refresh_apart hfresh ((mem1.set a (some (nodeCell cv left right))).set c
      (some (nodeCell v none none)))
    refine ⟨this', (mem1.set a (some (nodeCell cv left right))).set c (some (nodeCell v none none)), t',
      c, cv.ref, ?_, ⟨hrep.congr hag, hsharp, Memory.read_set_self hreadc2 _, hfresh, ?_⟩, ?_, hunl, hdup⟩
    · obtain ⟨b, w, l1, l2, rfl⟩ := Shape.exists_node hl
      obtain ⟨b', w', r1, r2, rfl⟩ := Shape.exists_node hr
      rw [Shape.ptr_node] at hright
      simp only [nodeCell] at hread hreadc hreada hreadc1 hreadc2 href ⊢
      rw [popDepth, popFromTree]
      simp only [hs, hread, Option.bind_eq_bind, Option.bind_some, Shape.ptr_node, hright,
        Memory.load_some, hreadc, he, hreada, hreadc1, Memory.write_live hreada,
        Memory.write_live hreadc2, href]
    · rw [Memory.outside_set _ (by simp), Memory.outside_set mem1 (by simp [hat]), hout]
    · rw [hvals, hx, hy]

theorem popFromTree_absent {data : D} (fuel : Nat) (hs : ∃ p, searchValue cmp this mem data = some (none, p)) :
    popFromTree cmp (fuel + 1) this mem data = some (this, mem, none) := by
  obtain ⟨p, hp⟩ := hs
  simp [popFromTree, hp]

/-! ## Dereferencing -/

theorem derefFromTree_survive (order : TotalOrder cmp) {data : D} {x y : List (Addr × Stored D)}
    {a : Addr} {v : Stored D} (h : Represents cmp this mem t q) (ht : t.inorder = x ++ (a, v) :: y)
    (hdata : cmp data v.data = 0) (hv : 1 < v.ref) :
    ∃ mem' t', derefFromTree cmp this mem data =
        some ({ this with duplicateCounter := this.duplicateCounter - 1 }, mem') ∧
      Represents cmp { this with duplicateCounter := this.duplicateCounter - 1 } mem' t' q ∧
      t'.inorder = x ++ (a, ⟨v.data, v.ref - 1⟩) :: y ∧ t'.addrs = t.addrs ∧
      mem'.outside (t'.addrs ++ q) = mem.outside (t.addrs ++ q) := by
  have hinc : Increasing cmp nodeKey (x ++ (a, (⟨v.data, v.ref - 1⟩ : Stored D)) :: y) := by
    have hi := h.increasing
    rw [ht] at hi
    exact hi.replace order (order.refl v.data)
  obtain ⟨k, l, r, hk⟩ := Trail.exists_plug (show (a, v) ∈ t.inorder by simp [ht])
  obtain ⟨hs, -, -⟩ := (hk ▸ h).at_focus order hdata
  obtain ⟨t', left, right, hin, haddr, hread, hrep⟩ :=
    h.rewrite ht ⟨v.data, v.ref - 1⟩ hinc
  refine ⟨_, t', ?_, hrep.withDuplicates (this.duplicateCounter - 1), hin, haddr, ?_⟩
  · simp only [nodeCell] at hread
    simp [derefFromTree, hs, hread, hv, Memory.write_live hread, nodeCell]
  · rw [haddr]
    exact mem.outside_set (List.mem_append_left _ (by simp [Shape.addrs, ht])) _

/-- `_deref_from_tree` on the last reference: the entry leaves the tree and its
cell, or the predecessor's, is recycled. -/
theorem derefFromTree_last (order : TotalOrder cmp) {data : D} {x y : List (Addr × Stored D)} {a : Addr}
    {v : Stored D} (h : Represents cmp this mem t q) (ht : t.inorder = x ++ (a, v) :: y)
    (hdata : cmp data v.data = 0) (hv : ¬ 1 < v.ref) :
    ∃ this' mem' t' q' u, derefFromTree cmp this mem data = some (this', mem') ∧
      Represents cmp this' mem' t' q' ∧ (Sharp this t → Sharp this' t') ∧
      t'.vals = x.map Prod.snd ++ y.map Prod.snd ∧
      mem'.outside (t'.addrs ++ q') = mem.outside (t.addrs ++ q) ∧
      unlinkedRef cmp this mem data = some u ∧
      (v.ref = 1 → this'.duplicateCounter = this.duplicateCounter - (u - 1)) := by
  obtain ⟨k, l, r, rfl⟩ := Trail.exists_plug (show (a, v) ∈ t.inorder by simp [ht])
  have hsplit := Trail.focus_inorder k a v l r
  obtain ⟨hx, -, hy⟩ := split_unique (by rw [← hsplit]; exact h.nodup) (hsplit.symm.trans ht)
  obtain ⟨hs, hread, -⟩ := h.at_focus order hdata
  by_cases hlr : l = .nil ∨ r = .nil
  · obtain ⟨hunl, -⟩ := popFromTree_single order h hdata hlr 1
    obtain ⟨c, hc, hcase⟩ : ∃ c, OnlyChild l r c ∧
        derefFromTree cmp this mem data = derefRemove this mem k.parent a c.ptr := by
      rcases hlr with rfl | rfl
      · refine ⟨r, Or.inl ⟨rfl, rfl⟩, ?_⟩
        cases r <;> simp [derefFromTree, hs, hread, nodeCell, hv]
      · refine ⟨l, Or.inr ⟨rfl, rfl⟩, ?_⟩
        cases l <;> simp [derefFromTree, hs, hread, nodeCell, hv]
    obtain ⟨this', mem', q', he, hrep, hsharp, hout, hdup⟩ := derefRemove_spec h hc
    refine ⟨this', mem', Trail.plug k c, q', v.ref, hcase.trans he, hrep, hsharp, ?_, hout, hunl, fun hone => ?_⟩
    · simp [Shape.vals, Trail.inorder_plug, hc.inorder, ← hx, ← hy]
    · rw [hdup, hone]
      exact (Int32.sub_zero _).symm
  · have hl : l ≠ .nil := fun he => hlr (Or.inl he)
    have hr : r ≠ .nil := fun he => hlr (Or.inr he)
    obtain ⟨c, cv, lc, rc, -, hright, hreadc, hunl, hinner⟩ := predecessor_moved order h hdata hl hr
    obtain ⟨this', mem1, left, right, t', he, hreada, hreadc1, hrep, hsharp, hvals, hat, hfresh, hout, hdup⟩ :=
      hinner 1
    have hca : c ≠ a := fun he => hfresh (List.mem_append_left _ (he ▸ hat))
    have hreadc2 : (mem1.set a (some (nodeCell cv left right))).read c = some (nodeCell cv none none) := by
      rw [mem1.read_set_ne hca]
      exact hreadc1
    have href := hrep.refresh_apart hfresh (mem1.set a (some (nodeCell cv left right)))
    obtain ⟨recycle, mem2, q', htrash, hrep', hout'⟩ :=
      Represents.trash (c := this'.nodeCounter) hrep href hreadc2 hfresh
    refine ⟨_, mem2, t', q', cv.ref, ?_, hrep', fun hs => ⟨(hsharp hs).top, (hsharp hs).bottom⟩, ?_, ?_, hunl,
      fun _ => hdup⟩
    · obtain ⟨b, w, l1, l2, rfl⟩ := Shape.exists_node hl
      obtain ⟨b', w', r1, r2, rfl⟩ := Shape.exists_node hr
      rw [Shape.ptr_node] at hright
      simp only [nodeCell] at hread hreadc hreada hreadc1 htrash ⊢
      rw [derefFromTree]
      simp only [hs, hread, Option.bind_eq_bind, Option.bind_some, Shape.ptr_node, hright, hv,
        ↓reduceIte, Memory.load_some, hreadc, popDepth, he, hreada, hreadc1,
        Memory.write_live hreada, htrash]
    · rw [hvals, hx, hy]
    · rw [hout', Memory.outside_set mem1 (by simp [hat]), hout]

theorem derefFromTree_absent {data : D} (hs : ∃ p, searchValue cmp this mem data = some (none, p)) :
    derefFromTree cmp this mem data = some (this, mem) := by
  obtain ⟨p, hp⟩ := hs
  simp [derefFromTree, hp]

end Devclego.Tree
