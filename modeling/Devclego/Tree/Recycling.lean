import Devclego.Tree.Represents

/-!
# Nodes between the tree and the recycle puffer

`_make_bintreenode` takes a node from the puffer or from the allocator and
`_trash_bintreenode` gives one back or frees it. Trashing first repairs the
cached extremes, which reads the child pointers of the node that was unlinked.
-/
namespace Devclego.Tree

open Foundation Puffers

variable {D : Type} {cmp : D → D → Int} {this : Bintree D} {mem : Mem D}
  {t : Shape (Stored D)} {q : List Addr}

/-! ## Cached extremes -/

/-- The top is looked for in the old left subtree when there is one, else from
the root. -/
theorem refreshTop_spec {a : Addr} {n : Bintreenode D} {l : Shape (Stored D)}
    (htop : this.top = some a) (hn : mem.read a = some n) (hleft : n.left = l.ptr)
    (hl : l.Holds nodeCell mem) (hroot : this.root = t.ptr) (ht : t.Holds nodeCell mem)
    (hsize : l.size ≤ mem.size ∧ t.size ≤ mem.size) :
    ∃ s, (s = t ∨ s = l ∧ l ≠ .nil) ∧
      refreshTop this mem = some { this with top := s.addrs.getLast? } := by
  cases l with
  | nil =>
    rw [Shape.ptr_nil] at hleft
    refine ⟨t, Or.inl rfl, ?_⟩
    simp [refreshTop, htop, hn, hleft, hroot, getRightestValue_spec ht hsize.2]
  | node b w x y =>
    have hr := getRightestValue_spec hl hsize.1
    rw [Shape.ptr_node] at hleft hr
    refine ⟨.node b w x y, Or.inr ⟨rfl, by simp⟩, ?_⟩
    simp [refreshTop, htop, hn, hleft, hr]

theorem refreshBottom_spec {a : Addr} {n : Bintreenode D} {r : Shape (Stored D)}
    (hbot : this.bottom = some a) (hn : mem.read a = some n) (hright : n.right = r.ptr)
    (hr : r.Holds nodeCell mem) (hroot : this.root = t.ptr) (ht : t.Holds nodeCell mem)
    (hsize : r.size ≤ mem.size ∧ t.size ≤ mem.size) :
    ∃ s, (s = t ∨ s = r ∧ r ≠ .nil) ∧
      refreshBottom this mem = some { this with bottom := s.addrs.head? } := by
  cases r with
  | nil =>
    rw [Shape.ptr_nil] at hright
    refine ⟨t, Or.inl rfl, ?_⟩
    simp [refreshBottom, hbot, hn, hright, hroot, getLeftestValue_spec ht hsize.2]
  | node b w x y =>
    have hl := getLeftestValue_spec hr hsize.1
    rw [Shape.ptr_node] at hright hl
    refine ⟨.node b w x y, Or.inr ⟨rfl, by simp⟩, ?_⟩
    simp [refreshBottom, hbot, hn, hright, hl]

/-- Caches that are fit for the addresses left, and their ends if they were the ends
of the addresses before. -/
structure Repaired (this : Bintree D) (old new : List Addr) (top bottom : Ptr) : Prop where
  top_cached : Cached top new
  bottom_cached : Cached bottom new
  top_sharp : this.top = old.getLast? → top = new.getLast?
  bottom_sharp : this.bottom = old.head? → bottom = new.head?

theorem refreshExtremes_of_ne {a : Addr} (htop : this.top ≠ some a) (hbot : this.bottom ≠ some a) :
    refreshExtremes this mem a = some this := by
  simp [refreshExtremes, refreshIfTop, refreshIfBottom, Ne.symm htop, Ne.symm hbot]

/-- A node that the record does not own is no cached extreme, and the repairs pass over it. -/
theorem Represents.refresh_apart (h : Represents cmp this mem t q) {a : Addr} (ha : a ∉ t.addrs ++ q)
    (mem' : Mem D) : refreshExtremes this mem' a = some this := by
  apply refreshExtremes_of_ne
  · exact fun hm => ha (List.mem_append_left q (h.top.mem a hm))
  · exact fun hm => ha (List.mem_append_left q (h.bottom.mem a hm))

/-- Taking one address out of a list moves its last element only if it was last. -/
theorem getLast?_remove {x y : List Addr} {a : Addr} (hn : (x ++ a :: y).Nodup) :
    if (x ++ a :: y).getLast? = some a then y = [] else (x ++ y).getLast? = (x ++ a :: y).getLast? := by
  cases y with
  | nil => simp
  | cons b y =>
    have hlast : (x ++ a :: b :: y).getLast? = (b :: y).getLast? := by
      simp [List.getLast?_append, List.getLast?_cons]
    have hmem : (b :: y).getLast? ≠ some a := by
      intro he
      have ha : a ∈ b :: y := List.mem_of_getLast? he
      exact (List.nodup_cons.mp (List.nodup_append.mp hn).2.1).1 ha
    rw [hlast, if_neg hmem, List.getLast?_append]
    simp [List.getLast?_cons]

theorem head?_remove {x y : List Addr} {a : Addr} (hn : (x ++ a :: y).Nodup) :
    if (x ++ a :: y).head? = some a then x = [] else (x ++ y).head? = (x ++ a :: y).head? := by
  cases x with
  | nil => simp
  | cons b x =>
    have hne : b ≠ a := by
      intro he
      subst he
      simp at hn
    simp [hne]

/-- A cache of another node than the one taken out still leads into the tree. -/
theorem Cached.remove {cached : Ptr} {x y : List Addr} {a : Addr} (h : Cached cached (x ++ a :: y))
    (ha : cached ≠ some a) : Cached cached (x ++ y) := by
  obtain ⟨b, hb⟩ : ∃ b, cached = some b := by
    cases hc : cached with
    | none => exact absurd (h.null_iff.mp hc) (by simp)
    | some b => exact ⟨b, rfl⟩
  have hne : b ≠ a := fun he => ha (he ▸ hb)
  have hmem := h.mem b hb
  rw [hb]
  refine cached_some ?_
  simp only [List.mem_append, List.mem_cons] at hmem ⊢
  tauto

/-- The ends of a subtree that is not empty are nodes of the tree around it. -/
theorem cached_ends {s : Shape (Stored D)} (h : s = t ∨ s ≠ .nil ∧ s.addrs ⊆ t.addrs) :
    Cached s.addrs.getLast? t.addrs ∧ Cached s.addrs.head? t.addrs := by
  rcases h with rfl | ⟨hne, hsub⟩
  · exact ⟨cached_getLast? _, cached_head? _⟩
  · have hsome : s.addrs ≠ [] := fun he => hne (Shape.eq_nil_of_inorder (by simpa [Shape.addrs] using he))
    rw [List.getLast?_eq_some_getLast hsome, List.head?_eq_some_head hsome]
    exact ⟨cached_some (hsub (List.getLast_mem hsome)), cached_some (hsub (List.head_mem hsome))⟩

theorem refreshIfTop_spec {a : Addr} {n : Bintreenode D} {l : Shape (Stored D)} {x y : List Addr}
    (hn : mem.read a = some n) (hleft : n.left = l.ptr) (hl : l.Holds nodeCell mem)
    (hroot : this.root = t.ptr) (ht : t.Holds nodeCell mem) (hsize : l.size ≤ mem.size ∧ t.size ≤ mem.size)
    (hnodup : (x ++ a :: y).Nodup) (haddrs : t.addrs = x ++ y) (htop : Cached this.top (x ++ a :: y))
    (hlsub : ∃ x', x = x' ++ l.addrs) :
    ∃ top, refreshIfTop this mem a = some { this with top := top } ∧ Cached top t.addrs ∧
      (this.top = (x ++ a :: y).getLast? → top = t.addrs.getLast?) := by
  have hcase := getLast?_remove hnodup
  by_cases htopa : this.top = some a
  · obtain ⟨s, hs, hrun⟩ := refreshTop_spec htopa hn hleft hl hroot ht hsize
    obtain ⟨x', rfl⟩ := hlsub
    have hsub : l.addrs ⊆ t.addrs := by
      intro b hb
      rw [haddrs]
      exact List.mem_append_left _ (List.mem_append_right _ hb)
    refine ⟨s.addrs.getLast?, by rw [refreshIfTop, if_pos htopa.symm, hrun], ?_, fun hsharp => ?_⟩
    · exact (cached_ends (hs.imp_right fun ⟨he, hne⟩ => by subst he; exact ⟨hne, hsub⟩)).1
    · rcases hs with rfl | ⟨rfl, hne⟩
      · rfl
      · have hlne : s.addrs ≠ [] := fun he => hne (Shape.eq_nil_of_inorder (by simpa [Shape.addrs] using he))
        rw [if_pos (hsharp.symm.trans htopa)] at hcase
        rw [haddrs, hcase, List.append_nil, List.getLast?_append_of_ne_nil _ hlne]
  · refine ⟨this.top, by rw [refreshIfTop, if_neg (Ne.symm htopa)], haddrs ▸ htop.remove htopa, fun hsharp => ?_⟩
    rw [if_neg (fun he => htopa (hsharp.trans he))] at hcase
    rw [hsharp, haddrs, hcase]

theorem refreshIfBottom_spec {a : Addr} {n : Bintreenode D} {r : Shape (Stored D)} {x y : List Addr}
    (hn : mem.read a = some n) (hright : n.right = r.ptr) (hr : r.Holds nodeCell mem)
    (hroot : this.root = t.ptr) (ht : t.Holds nodeCell mem) (hsize : r.size ≤ mem.size ∧ t.size ≤ mem.size)
    (hnodup : (x ++ a :: y).Nodup) (haddrs : t.addrs = x ++ y) (hbot : Cached this.bottom (x ++ a :: y))
    (hrsub : ∃ y', y = r.addrs ++ y') :
    ∃ bottom, refreshIfBottom this mem a = some { this with bottom := bottom } ∧ Cached bottom t.addrs ∧
      (this.bottom = (x ++ a :: y).head? → bottom = t.addrs.head?) := by
  have hcase := head?_remove hnodup
  by_cases hbota : this.bottom = some a
  · obtain ⟨s, hs, hrun⟩ := refreshBottom_spec hbota hn hright hr hroot ht hsize
    obtain ⟨y', rfl⟩ := hrsub
    have hsub : r.addrs ⊆ t.addrs := by
      intro b hb
      rw [haddrs]
      exact List.mem_append_right _ (List.mem_append_left _ hb)
    refine ⟨s.addrs.head?, by rw [refreshIfBottom, if_pos hbota.symm, hrun], ?_, fun hsharp => ?_⟩
    · exact (cached_ends (hs.imp_right fun ⟨he, hne⟩ => by subst he; exact ⟨hne, hsub⟩)).2
    · rcases hs with rfl | ⟨rfl, hne⟩
      · rfl
      · have hrne : s.addrs ≠ [] := fun he => hne (Shape.eq_nil_of_inorder (by simpa [Shape.addrs] using he))
        rw [if_pos (hsharp.symm.trans hbota)] at hcase
        rw [haddrs, hcase, List.nil_append, List.head?_append_of_ne_nil _ hrne]
  · refine ⟨this.bottom, by rw [refreshIfBottom, if_neg (Ne.symm hbota)], haddrs ▸ hbot.remove hbota, fun hsharp => ?_⟩
    rw [if_neg (fun he => hbota (hsharp.trans he))] at hcase
    rw [hsharp, haddrs, hcase]

/-- After `a` has been unlinked, the repairs make the caches fit for the tree that
is left. Its child pointers may still lead to the subtree that took its place, or may
have been cleared. -/
theorem refreshExtremes_spec {a : Addr} {n : Bintreenode D} {l r : Shape (Stored D)} {x y : List Addr}
    (hn : mem.read a = some n) (hleft : n.left = l.ptr) (hright : n.right = r.ptr)
    (hl : l.Holds nodeCell mem) (hr : r.Holds nodeCell mem)
    (hroot : this.root = t.ptr) (ht : t.Holds nodeCell mem)
    (hnodup : (x ++ a :: y).Nodup) (haddrs : t.addrs = x ++ y)
    (htop : Cached this.top (x ++ a :: y)) (hbot : Cached this.bottom (x ++ a :: y))
    (hlsub : ∃ x', x = x' ++ l.addrs) (hrsub : ∃ y', y = r.addrs ++ y') :
    ∃ top bottom, refreshExtremes this mem a = some { this with top := top, bottom := bottom } ∧
      Repaired this (x ++ a :: y) t.addrs top bottom := by
  have htn : t.addrs.Nodup := by
    rw [haddrs]
    exact hnodup.sublist (List.Sublist.append (List.Sublist.refl x) (List.sublist_cons_self a y))
  have hts := ht.size_le htn
  have hls : l.size ≤ mem.size := by
    obtain ⟨x', hx'⟩ := hlsub
    have hsum : t.size = x'.length + l.size + y.length := by
      rw [← Shape.length_addrs, ← Shape.length_addrs, haddrs, hx', List.length_append,
        List.length_append]
    omega
  have hrs : r.size ≤ mem.size := by
    obtain ⟨y', hy'⟩ := hrsub
    have hsum : t.size = x.length + (r.size + y'.length) := by
      rw [← Shape.length_addrs, ← Shape.length_addrs, haddrs, hy', List.length_append,
        List.length_append]
    omega
  obtain ⟨top, hruntop, hctop, hstop⟩ :=
    refreshIfTop_spec hn hleft hl hroot ht ⟨hls, hts⟩ hnodup haddrs htop hlsub
  have hroot' : ({ this with top := top } : Bintree D).root = t.ptr := hroot
  have hbot' : Cached ({ this with top := top } : Bintree D).bottom (x ++ a :: y) := hbot
  obtain ⟨bottom, hrunbot, hcbot, hsbot⟩ :=
    refreshIfBottom_spec hn hright hr hroot' ht ⟨hrs, hts⟩ hnodup haddrs hbot' hrsub
  refine ⟨top, bottom, ?_, hctop, hcbot, hstop, hsbot⟩
  rw [refreshExtremes, hruntop]
  exact hrunbot

/-! ## The recycle puffer -/

/-- Discarding a node that is neither linked nor pooled: it joins the puffer, or
it is freed because the puffer is full. -/
theorem trashBintreenode_spec {this' : Bintree D} {a : Addr} {n : Bintreenode D}
    (href : refreshExtremes this mem a = some this') (hrec : this'.recycle.Holds recycleSize q)
    (hpool : ∀ b ∈ q, (mem.read b).isSome) (hn : mem.read a = some n) (ha : a ∉ q) :
    ∃ recycle mem' q', trashBintreenode this mem a = some ({ this' with recycle := recycle }, mem') ∧
      recycle.Holds recycleSize q' ∧ (∀ b, b ≠ a → mem'.read b = mem.read b) ∧
      (∀ b ∈ q', (mem'.read b).isSome) ∧ (q' = q ++ [a] ∨ q' = q ∧ mem'.read a = none) := by
  by_cases hfull : datapufferIsfull this'.recycle = true
  · refine ⟨this'.recycle, mem.set a none, q, ?_, hrec, ?_, ?_, Or.inr ⟨rfl, ?_⟩⟩
    · simp [trashBintreenode, href, hfull, Memory.free_live hn]
    · exact fun b hb => mem.read_set_ne hb none
    · intro b hb
      rw [mem.read_set_ne (ne_of_mem_of_not_mem hb ha)]
      exact hpool b hb
    · exact Memory.read_set_self hn none
  · have hlt : q.length < recycleSize := by
      have hne := mt hrec.isfull_iff.mpr hfull
      have hle := hrec.fits
      omega
    refine ⟨datapufferWrite this'.recycle a, mem, q ++ [a], ?_, hrec.write hlt a, fun _ _ => rfl, ?_,
      Or.inl rfl⟩
    · simp [trashBintreenode, href, hfull]
    · intro b hb
      rcases List.mem_append.mp hb with hb | hb
      · exact hpool b hb
      · rw [List.mem_singleton.mp hb, hn]
        rfl

/-- What trashing does to ownership: the discarded node is owned or gone. -/
theorem outside_trash {mem' : Mem D} {own q' : List Addr} {a : Addr}
    (hag : ∀ b, b ≠ a → mem'.read b = mem.read b)
    (hq : q' = q ++ [a] ∨ q' = q ∧ mem'.read a = none) :
    mem'.outside (own ++ q') = mem.outside (a :: (own ++ q)) := by
  have hag' : mem'.outside (a :: (own ++ q)) = mem.outside (a :: (own ++ q)) := by
    apply Memory.outside_eq_of_agree
    intro b hb
    exact hag b (fun he => hb (by simp [he]))
  rcases hq with rfl | ⟨rfl, hdead⟩
  · rw [← hag']
    apply Memory.outside_congr
    intro b
    simp only [List.mem_append, List.mem_cons]
    tauto
  · rw [← hag', Memory.outside_cons_absent hdead]

/-- Trashing a node next to a represented tree. The node counter is corrected by
some callers only afterwards, so it is left open. -/
theorem Represents.trash {this' : Bintree D} {c : Int32} {a : Addr} {n : Bintreenode D}
    (h : Represents cmp { this' with nodeCounter := c } mem t q)
    (href : refreshExtremes this mem a = some this') (hn : mem.read a = some n)
    (ha : a ∉ t.addrs ++ q) :
    ∃ recycle mem' q', trashBintreenode this mem a = some ({ this' with recycle := recycle }, mem') ∧
      Represents cmp { this' with recycle := recycle, nodeCounter := c } mem' t q' ∧
      mem'.outside (t.addrs ++ q') = mem.outside (a :: (t.addrs ++ q)) := by
  have hat : a ∉ t.addrs := fun hm => ha (by simp [hm])
  have haq : a ∉ q := fun hm => ha (by simp [hm])
  obtain ⟨recycle, mem', q', he, hrec, hag, hpool, hq⟩ :=
    trashBintreenode_spec href h.recycle h.pooled hn haq
  refine ⟨recycle, mem', q', he, { h with
    holds := h.holds.congr fun b hb => hag b (ne_of_mem_of_not_mem hb hat)
    recycle := hrec
    pooled := hpool
    distinct := ?_ }, outside_trash hag hq⟩
  rcases hq with rfl | ⟨rfl, -⟩
  · rw [← List.append_assoc]
    refine List.nodup_append.mpr ⟨h.distinct, by simp, fun b hb c hc => ?_⟩
    rw [List.mem_singleton.mp hc]
    exact ne_of_mem_of_not_mem hb ha
  · exact h.distinct

/-- A made node is fresh or comes out of the puffer; either way it is nobody
else's. -/
theorem Represents.make (h : Represents cmp this mem t q) (data : D) :
    ∃ this' mem' a q', makeBintreenode this mem data = some (this', mem', a) ∧
      this' = { this with recycle := this'.recycle } ∧ Represents cmp this' mem' t q' ∧
      mem'.read a = some (nodeCell ⟨data, 1⟩ none none) ∧ a ∉ t.addrs ++ q' ∧
      mem'.outside (a :: (t.addrs ++ q')) = mem.outside (t.addrs ++ q) := by
  by_cases hempty : datapufferIsempty this.recycle = true
  · have hnew : mem.size ∉ t.addrs ++ q := by
      intro hm
      have hl := h.live _ hm
      rw [mem.read_size] at hl
      simp at hl
    refine ⟨this, (mem.alloc (nodeCell ⟨data, 1⟩ none none)).1, mem.size, q, ?_, rfl, ?_, ?_, hnew, ?_⟩
    · simp [makeBintreenode, hempty, Memory.alloc, Memory.size, nodeCell]
    · exact h.congr fun b hb => mem.read_alloc_ne _ (ne_of_mem_of_not_mem hb hnew)
    · exact mem.read_alloc_self _
    · exact mem.outside_alloc _ _
  · obtain ⟨a, q', rfl⟩ : ∃ a q', q = a :: q' := by
      cases q with
      | nil => exact absurd (h.recycle.isempty_iff.mpr rfl) hempty
      | cons a q' => exact ⟨a, q', rfl⟩
    obtain ⟨n, hn⟩ := Option.isSome_iff_exists.mp (h.pooled a (by simp))
    have hmid := List.nodup_middle.mp h.distinct
    have hne : ∀ b ∈ t.addrs ++ q', b ≠ a := fun b hb => ne_of_mem_of_not_mem hb
      (List.nodup_cons.mp hmid).1
    have hag : ∀ b ∈ t.addrs ++ q', (mem.set a (some (nodeCell ⟨data, 1⟩ none none))).read b =
        mem.read b := fun b hb => mem.read_set_ne (hne b hb) _
    refine ⟨{ this with recycle := (datapufferRead this.recycle).1 },
      mem.set a (some (nodeCell ⟨data, 1⟩ none none)), a, q', ?_, rfl, ?_, ?_, ?_, ?_⟩
    · simp [makeBintreenode, hempty, h.recycle.read_result, Memory.write_live hn, nodeCell]
    · exact { h with
        holds := h.holds.congr fun b hb => hag b (by simp [hb])
        recycle := h.recycle.read
        pooled := by
          intro b hb
          rw [hag b (by simp [hb])]
          exact h.pooled b (by simp [hb])
        distinct := (List.nodup_cons.mp hmid).2 }
    · exact Memory.read_set_self hn _
    · exact (List.nodup_cons.mp hmid).1
    · rw [Memory.outside_set mem (by simp)]
      apply Memory.outside_congr
      intro b
      simp only [List.mem_cons, List.mem_append]
      tauto

end Devclego.Tree
