import Devclego.Tree.Recycling

/-!
# Putting a node into the tree

`_insert_into_tree` either links the caller's node into the gap of its key or
merges it into the node that holds an equal key. Merging adds the multiplicities,
takes over the newer datum and trashes the caller's node in the middle of the
recursion.
-/
namespace Devclego.Tree

open Foundation Puffers

variable {D : Type} {cmp : D → D → Int} {this : Bintree D} {mem : Mem D}
  {t : Shape (Stored D)} {q : List Addr}

/-- The nodes in order before and after an insertion, and the node that holds the
key afterwards. -/
inductive Placed (cmp : D → D → Int) (insert : Addr) (e : Stored D) :
    List (Addr × Stored D) → List (Addr × Stored D) → Addr → Prop where
  | fresh (x y : List (Addr × Stored D)) (gap : Gap cmp nodeKey e.data x y) :
      Placed cmp insert e (x ++ y) (x ++ (insert, e) :: y) insert
  | merged (x y : List (Addr × Stored D)) (a : Addr) (v : Stored D) (same : cmp v.data e.data = 0) :
      Placed cmp insert e (x ++ (a, v) :: y) (x ++ (a, ⟨e.data, v.ref + e.ref⟩) :: y) a

theorem Placed.append {insert i : Addr} {e : Stored D} {xs xs' : List (Addr × Stored D)}
    (h : Placed cmp insert e xs xs' i) (z : List (Addr × Stored D))
    (hz : ∀ u ∈ z, cmp e.data (nodeKey u) < 0) : Placed cmp insert e (xs ++ z) (xs' ++ z) i := by
  cases h with
  | fresh x y gap =>
    rw [List.append_assoc, List.append_assoc, List.cons_append]
    refine .fresh x (y ++ z) ⟨gap.left, fun u hu => ?_⟩
    rcases List.mem_append.mp hu with hu | hu
    · exact gap.right u hu
    · exact hz u hu
  | merged x y a v same =>
    rw [List.append_assoc, List.append_assoc, List.cons_append, List.cons_append]
    exact .merged x (y ++ z) i v same

theorem Placed.prepend {insert i : Addr} {e : Stored D} {xs xs' : List (Addr × Stored D)}
    (h : Placed cmp insert e xs xs' i) (z : List (Addr × Stored D))
    (hz : ∀ u ∈ z, cmp (nodeKey u) e.data < 0) : Placed cmp insert e (z ++ xs) (z ++ xs') i := by
  cases h with
  | fresh x y gap =>
    rw [← List.append_assoc, ← List.append_assoc]
    refine .fresh (z ++ x) y ⟨fun u hu => ?_, gap.right⟩
    rcases List.mem_append.mp hu with hu | hu
    · exact hz u hu
    · exact gap.left u hu
  | merged x y a v same =>
    rw [← List.append_assoc, ← List.append_assoc]
    exact .merged (z ++ x) y i v same

/-- What an insertion does to the record: the node is counted, or a duplicate is
counted and the node recycled. -/
inductive Counted (insert : Addr) (q : List Addr) (this this' : Bintree D) (mem' : Mem D) :
    List Addr → Addr → Prop where
  | linked (h : this' = { this with nodeCounter := this.nodeCounter + 1 }) :
      Counted insert q this this' mem' q insert
  | merged (recycle : Datapuffer Addr) (q' : List Addr) (i : Addr) (other : i ≠ insert)
      (h : this' = { this with recycle := recycle, duplicateCounter := this.duplicateCounter + 1 })
      (holds : recycle.Holds recycleSize q')
      (kept : q' = q ++ [insert] ∨ q' = q ∧ mem'.read insert = none) :
      Counted insert q this this' mem' q' i

/-- The result of the recursion below one pointer. -/
structure Inserted (cmp : D → D → Int) (insert : Addr) (e : Stored D) (this : Bintree D) (mem : Mem D)
    (t : Shape (Stored D)) (q : List Addr) (this' : Bintree D) (mem' : Mem D) (t' : Shape (Stored D))
    (q' : List Addr) (i : Addr) : Prop where
  holds : t'.Holds nodeCell mem'
  placed : Placed cmp insert e t.inorder t'.inorder i
  counted : Counted insert q this this' mem' q' i
  pooled : ∀ b ∈ q', (mem'.read b).isSome
  frame : ∀ b, b ∉ t.addrs → b ≠ insert → mem'.read b = mem.read b

/-- Coming back up: writing the pointer of the walked child into its parent. -/
theorem Inserted.link {insert i a : Addr} {e : Stored D} {this' : Bintree D} {mem' : Mem D}
    {s t' whole : Shape (Stored D)} {q' : List Addr} {n n' : Bintreenode D}
    (h : Inserted cmp insert e this mem s q this' mem' t' q' i) (ha : mem'.read a = some n)
    (hat : a ∉ t'.addrs) (hai : a ≠ insert) (hsub : ∀ b ∈ s.addrs, b ∈ t.addrs) (hat' : a ∈ t.addrs)
    (hholds : (t'.Holds nodeCell (mem'.set a (some n'))) → whole.Holds nodeCell (mem'.set a (some n')))
    (hplaced : Placed cmp insert e t.inorder whole.inorder i) :
    Inserted cmp insert e this mem t q this' (mem'.set a (some n')) whole q' i where
  holds := hholds (h.holds.set_of_not_mem hat _)
  placed := hplaced
  counted := by
    cases h.counted with
    | linked he => exact .linked he
    | merged recycle _ _ hne he hr hk =>
      refine .merged recycle q' i hne he hr ?_
      rw [mem'.read_set_ne (Ne.symm hai)]
      exact hk
  pooled := by
    intro b hb
    by_cases hba : b = a
    · rw [hba, Memory.read_set_self ha]
      rfl
    · rw [mem'.read_set_ne hba]
      exact h.pooled b hb
  frame := by
    intro b hb hbi
    rw [mem'.read_set_ne (ne_of_mem_of_not_mem hat' hb).symm, h.frame b (fun hs => hb (hsub b hs)) hbi]

theorem Placed.addrs {insert i : Addr} {e : Stored D} {xs xs' : List (Addr × Stored D)}
    (h : Placed cmp insert e xs xs' i) {b : Addr} (hb : b ∈ xs'.map Prod.fst) :
    b = insert ∨ b ∈ xs.map Prod.fst := by
  cases h with
  | fresh x y gap =>
    simp only [List.map_append, List.map_cons, List.mem_append, List.mem_cons] at hb ⊢
    tauto
  | merged x y a v same =>
    simp only [List.map_append, List.map_cons, List.mem_append, List.mem_cons] at hb ⊢
    tauto

/-- `_insert_into_tree` at the node of an equal key: the node takes over the datum
and the multiplicity, and the caller's node is trashed. -/
theorem insertIntoTree_merge {insert a : Addr} {e v : Stored D} {l r : Shape (Stored D)}
    (hi : mem.read insert = some (nodeCell e none none)) (h : (Shape.node a v l r).Holds nodeCell mem)
    (hnodup : (Shape.node a v l r).addrs.Nodup) (same : cmp v.data e.data = 0)
    (hit : insert ∉ (Shape.node a v l r).addrs) (hiq : insert ∉ q)
    (hrec : this.recycle.Holds recycleSize q) (hpool : ∀ b ∈ q, (mem.read b).isSome)
    (htop : this.top ≠ some insert) (hbot : this.bottom ≠ some insert)
    (hquiet : this.duplicateNotifier = none) {fuel : Nat} :
    ∃ this' mem' t' p q' i, insertIntoTree cmp (fuel + 1) this mem (some a) insert =
        some (this', mem', p, i) ∧ t'.ptr = some p ∧
      Inserted cmp insert e this mem (.node a v l r) q this' mem' t' q' i := by
  obtain ⟨ha, hl, hr⟩ := h
  simp only [Shape.addrs_node, List.mem_append, List.mem_cons, not_or] at hit
  obtain ⟨hil, hia, hir⟩ := hit
  rw [Shape.addrs_node] at hnodup
  obtain ⟨-, hrn, hlr⟩ := List.nodup_append.mp hnodup
  have har : a ∉ r.addrs := (List.nodup_cons.mp hrn).1
  have hal : a ∉ l.addrs := fun hm => hlr a hm a (by simp) rfl
  have hpool1 : ∀ b ∈ q,
      ((mem.set a (some (nodeCell ⟨e.data, v.ref + e.ref⟩ l.ptr r.ptr))).read b).isSome := by
    intro b hb
    by_cases hba : b = a
    · rw [hba, Memory.read_set_self ha]
      rfl
    · rw [mem.read_set_ne hba]
      exact hpool b hb
  have hi1 : (mem.set a (some (nodeCell ⟨e.data, v.ref + e.ref⟩ l.ptr r.ptr))).read insert =
      some (nodeCell e none none) := by
    rw [mem.read_set_ne hia]
    exact hi
  obtain ⟨recycle, mem', q', he, hrec', hag, hpool', hq⟩ :=
    trashBintreenode_spec (refreshExtremes_of_ne htop hbot) hrec hpool1 hi1 hiq
  have hkeep : ∀ s : Shape (Stored D), s.Holds nodeCell mem → a ∉ s.addrs → insert ∉ s.addrs →
      s.Holds nodeCell mem' := fun s hs has his =>
    (hs.set_of_not_mem has _).congr fun b hb => hag b (ne_of_mem_of_not_mem hb his)
  refine ⟨{ this with recycle := recycle, duplicateCounter := this.duplicateCounter + 1 }, mem',
    .node a ⟨e.data, v.ref + e.ref⟩ l r, a, q', a, ?_, rfl, ?_⟩
  · simp only [nodeCell] at ha hi he
    have hsame : ({ this with duplicateNotifier := none } : Bintree D) = this := by
      rw [← hquiet]
    simp [insertIntoTree, ha, hi, same, hquiet, hsame, Memory.write_live ha, he]
  · refine ⟨⟨?_, hkeep l hl hal hil, hkeep r hr har hir⟩, .merged _ _ a v same,
      .merged recycle q' a (Ne.symm hia) rfl hrec' hq, hpool', ?_⟩
    · rw [hag a (Ne.symm hia), Memory.read_set_self ha]
    · intro b hb hbi
      rw [hag b hbi, mem.read_set_ne (fun hba => hb (by simp [hba]))]

/-- `_insert_into_tree` on a subtree that the new node is not part of. -/
theorem insertIntoTree_spec (order : TotalOrder cmp) {insert : Addr} {e : Stored D}
    (hi : mem.read insert = some (nodeCell e none none)) (h : t.Holds nodeCell mem)
    (hinc : Increasing cmp nodeKey t.inorder) (hnodup : t.addrs.Nodup)
    (hit : insert ∉ t.addrs) (hiq : insert ∉ q) (hrec : this.recycle.Holds recycleSize q)
    (hpool : ∀ b ∈ q, (mem.read b).isSome) (htop : this.top ≠ some insert)
    (hbot : this.bottom ≠ some insert) (hquiet : this.duplicateNotifier = none)
    {fuel : Nat} (hf : t.size < fuel) :
    ∃ this' mem' t' p q' i, insertIntoTree cmp fuel this mem t.ptr insert = some (this', mem', p, i) ∧
      t'.ptr = some p ∧ Inserted cmp insert e this mem t q this' mem' t' q' i := by
  induction t generalizing fuel with
  | nil =>
    obtain ⟨fuel, rfl⟩ : ∃ n, fuel = n + 1 := ⟨fuel - 1, by omega⟩
    exact ⟨_, mem, .node insert e .nil .nil, insert, q, insert, rfl, rfl, ⟨hi, trivial, trivial⟩,
      .fresh [] [] ⟨by simp, by simp⟩, .linked rfl, hpool, fun _ _ _ => rfl⟩
  | node a v l r ihl ihr =>
    rw [Shape.size_node] at hf
    obtain ⟨fuel, rfl⟩ : ∃ n, fuel = n + 1 := ⟨fuel - 1, by omega⟩
    obtain ⟨ha, hl, hr⟩ := h
    rw [Shape.addrs_node] at hnodup hit
    simp only [List.mem_append, List.mem_cons, not_or] at hit
    obtain ⟨hil, hia, hir⟩ := hit
    obtain ⟨hln, hrn, hlr⟩ := List.nodup_append.mp hnodup
    obtain ⟨har, hrn⟩ := List.nodup_cons.mp hrn
    have hal : a ∉ l.addrs := fun hm => hlr a hm a (by simp) rfl
    have hgap : Gap cmp nodeKey v.data l.inorder r.inorder := hinc.gap
    have hincl := hinc.sublist (List.sublist_append_left l.inorder _)
    have hincr := hinc.remove.sublist (List.sublist_append_right l.inorder r.inorder)
    rcases Int.lt_trichotomy (cmp v.data e.data) 0 with hlt | heq | hgt
    · have hsize : r.size < fuel := by omega
      obtain ⟨this', mem', r', p, q', i, he, hp, hins⟩ := ihr hr hincr hrn hir hsize
      have hread : mem'.read a = some (nodeCell v l.ptr r.ptr) := (hins.frame a har (Ne.symm hia)).trans ha
      have har' : a ∉ r'.addrs := fun hm => (hins.placed.addrs hm).elim (Ne.symm hia) har
      have hll : l.Holds nodeCell mem' := hl.congr fun b hb => hins.frame b
        (fun hbr => hlr b hb b (List.mem_cons_of_mem _ hbr) rfl) (ne_of_mem_of_not_mem hb hil)
      refine ⟨this', mem'.set a (some (nodeCell v l.ptr (some p))), .node a v l r', a, q', i, ?_, rfl,
        hins.link hread har' (Ne.symm hia) (fun b hb => by simp [hb]) (by simp) ?_ ?_⟩
      · simp only [nodeCell] at ha hi hread
        have hne : cmp v.data e.data ≠ 0 := by omega
        simp [insertIntoTree, ha, hi, nodeCell, hne, hlt, he, hread, Memory.write_live hread]
      · intro hr'
        exact ⟨hp ▸ Memory.read_set_self hread _, hll.set_of_not_mem hal _, hr'⟩
      · have hpre := hins.placed.prepend (l.inorder ++ [(a, v)]) (by
          intro u hu
          rcases List.mem_append.mp hu with hu | hu
          · exact order.lt_trans (hgap.left u hu) hlt
          · rw [List.mem_singleton.mp hu]
            exact hlt)
        simpa using hpre
    · have hin : insert ∉ (Shape.node a v l r).addrs := by simp [hil, hia, hir]
      have hnd : (Shape.node a v l r).addrs.Nodup := by simpa using hnodup
      exact insertIntoTree_merge hi ⟨ha, hl, hr⟩ hnd heq hin hiq hrec hpool htop hbot hquiet
    · have hsize : l.size < fuel := by omega
      obtain ⟨this', mem', l', p, q', i, he, hp, hins⟩ := ihl hl hincl hln hil hsize
      have hread : mem'.read a = some (nodeCell v l.ptr r.ptr) := (hins.frame a hal (Ne.symm hia)).trans ha
      have hal' : a ∉ l'.addrs := fun hm => (hins.placed.addrs hm).elim (Ne.symm hia) hal
      have hrr : r.Holds nodeCell mem' := hr.congr fun b hb => hins.frame b
        (fun hbl => hlr b hbl b (List.mem_cons_of_mem _ hb) rfl) (ne_of_mem_of_not_mem hb hir)
      have hlt : cmp e.data v.data < 0 := (order.antisymm _ _).mpr hgt
      refine ⟨this', mem'.set a (some (nodeCell v (some p) r.ptr)), .node a v l' r, a, q', i, ?_, rfl,
        hins.link hread hal' (Ne.symm hia) (fun b hb => by simp [hb]) (by simp) ?_ ?_⟩
      · simp only [nodeCell] at ha hi hread
        have hne : cmp v.data e.data ≠ 0 := by omega
        have hnl : ¬ cmp v.data e.data < 0 := by omega
        simp [insertIntoTree, ha, hi, nodeCell, hne, hnl, he, hread, Memory.write_live hread]
      · intro hl'
        exact ⟨hp ▸ Memory.read_set_self hread _, hl', hrr.set_of_not_mem har _⟩
      · refine hins.placed.append ((a, v) :: r.inorder) ?_
        intro u hu
        rcases List.mem_cons.mp hu with rfl | hu
        · exact hlt
        · exact order.lt_trans hlt (hgap.right u hu)

/-! ## Cached extremes -/

/-- Whatever the node counter shows, a cache is kept or moved to the node that was
put in. A cache is null only where the counter shows one node. -/
theorem insertExtremes_cached {i : Addr} (h : t.Holds nodeCell mem) (hi : i ∈ t.addrs)
    (htop : ∀ a, this.top = some a → a ∈ t.addrs) (hbot : ∀ a, this.bottom = some a → a ∈ t.addrs)
    (hnull : this.top = none ∨ this.bottom = none → this.nodeCounter = 1) :
    ∃ top bottom, insertExtremes cmp this mem i = some { this with top := top, bottom := bottom } ∧
      Cached top t.addrs ∧ Cached bottom t.addrs := by
  by_cases hone : this.nodeCounter = 1
  · exact ⟨some i, some i, by rw [insertExtremes, if_pos hone], cached_some hi, cached_some hi⟩
  · obtain ⟨a, ha⟩ : ∃ a, this.top = some a :=
      Option.ne_none_iff_exists'.mp fun hnone => hone (hnull (Or.inl hnone))
    obtain ⟨b, hb⟩ : ∃ b, this.bottom = some b :=
      Option.ne_none_iff_exists'.mp fun hnone => hone (hnull (Or.inr hnone))
    obtain ⟨na, hna⟩ := Option.isSome_iff_exists.mp (h.live a (htop a ha))
    obtain ⟨nb, hnb⟩ := Option.isSome_iff_exists.mp (h.live b (hbot b hb))
    obtain ⟨ni, hni⟩ := Option.isSome_iff_exists.mp (h.live i hi)
    have hca := cached_some (htop a ha)
    have hcb := cached_some (hbot b hb)
    simp only [insertExtremes, hone, ↓reduceIte, ha, hb, Memory.load_some, hna, hnb, hni,
      Option.bind_eq_bind, Option.bind_some]
    by_cases hlast : cmp na.data ni.data < 0
    · exact ⟨some i, some b, by rw [if_pos hlast, ← hb], cached_some hi, hcb⟩
    · by_cases hfirst : cmp ni.data nb.data < 0
      · exact ⟨some a, some i, by rw [if_neg hlast, if_pos hfirst, ← ha], hca, cached_some hi⟩
      · exact ⟨some a, some b, by rw [if_neg hlast, if_neg hfirst, ← ha, ← hb], hca, hcb⟩

/-- The caches after a new node: they were the extremes of the others. -/
theorem insertExtremes_fresh (order : TotalOrder cmp) {i : Addr} {w : Stored D}
    {x y : List (Addr × Stored D)} (h : t.Holds nodeCell mem) (hinc : Increasing cmp nodeKey t.inorder)
    (ht : t.inorder = x ++ (i, w) :: y) (hcount : this.nodeCounter = 1 ↔ t.size = 1)
    (htop : this.top = ((x ++ y).map Prod.fst).getLast?)
    (hbot : this.bottom = ((x ++ y).map Prod.fst).head?) :
    insertExtremes cmp this mem i =
      some { this with top := t.addrs.getLast?, bottom := t.addrs.head? } := by
  have hgap : Gap cmp nodeKey w.data x y := (ht ▸ hinc).gap
  obtain ⟨li, ri, hi⟩ := h.read (show (i, w) ∈ t.inorder by simp [ht])
  have hsize : t.size = x.length + y.length + 1 := by
    simp only [Shape.size, ht, List.length_append, List.length_cons]
    omega
  have hread (u : Addr × Stored D) (hu : u ∈ x ++ y) :
      ∃ l r, mem.read u.1 = some (nodeCell u.2 l r) := by
    refine h.read ?_
    rw [ht]
    rcases List.mem_append.mp hu with hu | hu
    · exact List.mem_append_left _ hu
    · exact List.mem_append_right _ (List.mem_cons_of_mem _ hu)
  rcases List.eq_nil_or_concat' y with rfl | ⟨y', u, rfl⟩
  · rcases List.eq_nil_or_concat' x with rfl | ⟨x', u, rfl⟩
    · have hone : this.nodeCounter = 1 := hcount.mpr (by rw [hsize]; rfl)
      simp [insertExtremes, hone, Shape.addrs, ht]
    · have hone : this.nodeCounter ≠ 1 := by
        rw [Ne, hcount, hsize, List.length_append, List.length_singleton]
        omega
      obtain ⟨lu, ru, hu⟩ := hread u (by simp)
      have hlt : cmp u.2.data w.data < 0 := hgap.left u (by simp)
      have hb : ((x' ++ [u]).map Prod.fst).head? = ((x' ++ [u] ++ [(i, w)]).map Prod.fst).head? := by
        cases x' <;> rfl
      rw [List.append_nil, hb] at hbot
      have ht2 : this.top = some u.1 := by simpa using htop
      simp [insertExtremes, hone, ht2, hu, hi, nodeCell, hlt, hbot, Shape.addrs, ht]
  · have hone : this.nodeCounter ≠ 1 := by
      rw [Ne, hcount, hsize, List.length_append, List.length_singleton]
      omega
    obtain ⟨lu, ru, hu⟩ := hread u (by simp)
    have ht2 : this.top = some u.1 := by simpa using htop
    have hgt : ¬ cmp u.2.data w.data < 0 := order.not_lt_of_le (Int.le_of_lt (hgap.right u (by simp)))
    have hlast : t.addrs.getLast? = this.top := by
      have hsplit : t.inorder = (x ++ (i, w) :: y') ++ [u] := by simp [ht]
      rw [ht2, Shape.addrs, List.getLast?_map, hsplit, List.getLast?_concat]
      rfl
    cases x with
    | nil =>
      obtain ⟨f, ys, hys⟩ : ∃ f ys, y' ++ [u] = f :: ys := by
        cases y' with
        | nil => exact ⟨u, [], rfl⟩
        | cons f ys => exact ⟨f, ys ++ [u], rfl⟩
      obtain ⟨lf, rf, hf⟩ := hread f (by simp [hys])
      have hb2 : this.bottom = some f.1 := by simpa [hys] using hbot
      have hlt : cmp w.data f.2.data < 0 := hgap.right f (by simp [hys])
      rw [hlast]
      simp [insertExtremes, hone, ht2, hu, hi, nodeCell, hgt, hb2, hf, hlt, Shape.addrs, ht]
    | cons f xs =>
      obtain ⟨lf, rf, hf⟩ := hread f (by simp)
      have hb2 : this.bottom = some f.1 := by simpa using hbot
      have hgt' : ¬ cmp w.data f.2.data < 0 := order.not_lt_of_le (Int.le_of_lt (hgap.left f (by simp)))
      have hfirst : t.addrs.head? = this.bottom := by
        rw [hb2, Shape.addrs, ht]
        rfl
      rw [hlast, hfirst]
      simp [insertExtremes, hone, ht2, hu, hi, nodeCell, hgt, hb2, hf, hgt']
      rw [← hb2, ← ht2]

/-- The caches after a merge: they already are the extremes. -/
theorem insertExtremes_merged (order : TotalOrder cmp) {i : Addr} {w : Stored D} (h : t.Holds nodeCell mem)
    (hinc : Increasing cmp nodeKey t.inorder) (hmem : (i, w) ∈ t.inorder)
    (hcount : this.nodeCounter = 1 ↔ t.size = 1) (htop : this.top = t.addrs.getLast?)
    (hbot : this.bottom = t.addrs.head?) : insertExtremes cmp this mem i = some this := by
  by_cases hone : this.nodeCounter = 1
  · obtain ⟨u, hu⟩ := List.length_eq_one_iff.mp (hcount.mp hone)
    obtain rfl : (i, w) = u := List.mem_singleton.mp (hu ▸ hmem)
    have ht2 : this.top = some i := by simpa [Shape.addrs, hu] using htop
    have hb2 : this.bottom = some i := by simpa [Shape.addrs, hu] using hbot
    rw [insertExtremes, if_pos hone]
    cases this
    cases ht2
    cases hb2
    rfl
  · have hne : t.inorder ≠ [] := List.ne_nil_of_mem hmem
    obtain ⟨u, hu⟩ : ∃ u, t.inorder.getLast? = some u := ⟨_, List.getLast?_eq_some_getLast hne⟩
    obtain ⟨f, hf⟩ : ∃ f, t.inorder.head? = some f := ⟨_, List.head?_eq_some_head hne⟩
    have ht2 : this.top = some u.1 := by rw [htop, Shape.addrs, List.getLast?_map, hu]; rfl
    have hb2 : this.bottom = some f.1 := by rw [hbot, Shape.addrs, List.head?_map, hf]; rfl
    obtain ⟨li, ri, hi⟩ := h.read hmem
    obtain ⟨lu, ru, hru⟩ := h.read (List.mem_of_getLast? hu)
    obtain ⟨lf, rf, hrf⟩ := h.read (List.mem_of_head? hf)
    have hgt : ¬ cmp u.2.data w.data < 0 := order.not_lt_of_le (hinc.le_last order hu _ hmem)
    have hgt' : ¬ cmp w.data f.2.data < 0 := order.not_lt_of_le (hinc.head_le order hf _ hmem)
    simp [insertExtremes, hone, ht2, hru, hi, nodeCell, hgt, hb2, hrf, hgt']

/-! ## The whole insertion -/

theorem Placed.increasing (order : TotalOrder cmp) {insert i : Addr} {e : Stored D}
    {xs xs' : List (Addr × Stored D)} (h : Placed cmp insert e xs xs' i)
    (hinc : Increasing cmp nodeKey xs) : Increasing cmp nodeKey xs' := by
  cases h with
  | fresh x y gap => exact hinc.insert gap
  | merged x y a v same => exact hinc.replace order same

/-- A new node extends the tree. The caches lead into it, and they are its ends again
unless the node counter comes round to one. -/
theorem Represents.linked (order : TotalOrder cmp) {node : Addr} {e : Stored D} {t' : Shape (Stored D)}
    {mem' : Mem D} {x y : List (Addr × Stored D)} (h : Represents cmp this mem t q)
    (hfresh : node ∉ t.addrs ++ q) (gap : Gap cmp nodeKey e.data x y)
    (hin : t.inorder = x ++ y) (hin' : t'.inorder = x ++ (node, e) :: y)
    (hholds : t'.Holds nodeCell mem') (hpool : ∀ b ∈ q, (mem'.read b).isSome) :
    ∃ this', insertExtremes cmp { this with nodeCounter := this.nodeCounter + 1 } mem' node = some this' ∧
      Represents cmp { this' with root := t'.ptr } mem' t' q ∧
      (Sharp this t → t'.size ≤ 4294967296 → Sharp { this' with root := t'.ptr } t') ∧
      bintreeGetRefnum this' = bintreeGetRefnum this + 1 := by
  have hplaced : Placed cmp node e t.inorder t'.inorder node := by
    rw [hin, hin']
    exact .fresh x y gap
  have hinc := hplaced.increasing order h.increasing
  have hsize : t'.size = t.size + 1 := by
    simp [Shape.size, hin, hin']
    omega
  have haddrs : t.addrs = (x ++ y).map Prod.fst := by rw [Shape.addrs, hin]
  have haddrs' : t'.addrs = x.map Prod.fst ++ node :: y.map Prod.fst := by simp [Shape.addrs, hin']
  have hsub : ∀ a ∈ t.addrs, a ∈ t'.addrs := by
    intro a ha
    simp only [haddrs, haddrs', List.map_append, List.mem_append, List.mem_cons] at ha ⊢
    tauto
  have hcount : this.nodeCounter + 1 = Int32.ofNat t'.size := by rw [h.count, hsize, ofNat_succ]
  have hnull : this.top = none ∨ this.bottom = none → this.nodeCounter + 1 = 1 := by
    intro hnone
    have hnil : t.addrs = [] := hnone.elim h.top.null_iff.mp h.bottom.null_iff.mp
    have hzero : t.size = 0 := by rw [← Shape.length_addrs, hnil, List.length_nil]
    rw [hcount, hsize, hzero]
    rfl
  have hdistinct : (t'.addrs ++ q).Nodup := by
    have hd := List.nodup_cons.mpr ⟨hfresh, h.distinct⟩
    rw [haddrs, List.map_append, List.append_assoc] at hd
    rw [haddrs', List.append_assoc, List.cons_append]
    exact List.nodup_middle.mpr hd
  let counted : Bintree D := { this with nodeCounter := this.nodeCounter + 1 }
  obtain ⟨top, bottom, hext, hctop, hcbot⟩ : ∃ top bottom, insertExtremes cmp counted mem' node =
      some { counted with top := top, bottom := bottom } ∧ Cached top t'.addrs ∧ Cached bottom t'.addrs :=
    insertExtremes_cached hholds (by simp [haddrs']) (fun a ha => hsub a (h.top.mem a ha))
      (fun a ha => hsub a (h.bottom.mem a ha)) hnull
  refine ⟨_, hext, ⟨rfl, hctop, hcbot, hcount, h.quiet, hholds, hinc, h.recycle, hpool, hdistinct⟩,
    fun hs hle => ?_, ?_⟩
  · have hone : counted.nodeCounter = 1 ↔ t'.size = 1 := by
      change this.nodeCounter + 1 = 1 ↔ _
      rw [hcount, ofNat_eq_one_iff hle]
    have htop : counted.top = ((x ++ y).map Prod.fst).getLast? := haddrs ▸ hs.top
    have hbot : counted.bottom = ((x ++ y).map Prod.fst).head? := haddrs ▸ hs.bottom
    have hends := insertExtremes_fresh order hholds hinc hin' hone htop hbot
    rw [hext] at hends
    cases hends
    exact ⟨rfl, rfl⟩
  · simp only [bintreeGetRefnum, counted]
    rw [Int32.add_assoc, Int32.add_comm 1, ← Int32.add_assoc]

/-- A merge changes one entry: the addresses in order stay as they are. -/
theorem Represents.merged (order : TotalOrder cmp) {i : Addr} {e v : Stored D} {t' : Shape (Stored D)}
    {mem' : Mem D} {x y : List (Addr × Stored D)} {recycle : Datapuffer Addr} {q' : List Addr}
    (h : Represents cmp this mem t q) (same : cmp v.data e.data = 0)
    (hin : t.inorder = x ++ (i, v) :: y) (hin' : t'.inorder = x ++ (i, ⟨e.data, v.ref + e.ref⟩) :: y)
    (hholds : t'.Holds nodeCell mem') (hrec : recycle.Holds recycleSize q')
    (hpool : ∀ b ∈ q', (mem'.read b).isSome) (hdistinct : (t.addrs ++ q').Nodup) :
    ∃ this', insertExtremes cmp { this with
        recycle := recycle, duplicateCounter := this.duplicateCounter + 1 } mem' i = some this' ∧
      Represents cmp { this' with root := t'.ptr } mem' t' q' ∧
      (Sharp this t → t'.size ≤ 4294967296 → Sharp { this' with root := t'.ptr } t') ∧
      bintreeGetRefnum this' = bintreeGetRefnum this + 1 := by
  have hplaced : Placed cmp i e t.inorder t'.inorder i := by
    rw [hin, hin']
    exact .merged x y i v same
  have hinc := hplaced.increasing order h.increasing
  have haddrs : t'.addrs = t.addrs := by simp [Shape.addrs, hin, hin']
  have hsize : t'.size = t.size := by rw [← Shape.length_addrs, haddrs, Shape.length_addrs]
  have hcount : this.nodeCounter = Int32.ofNat t'.size := by rw [h.count, hsize]
  have hentry : (i, ⟨e.data, v.ref + e.ref⟩) ∈ t'.inorder := by simp [hin']
  have hmem : i ∈ t'.addrs := List.mem_map.mpr ⟨_, hentry, rfl⟩
  have hnull : this.top = none ∨ this.bottom = none → this.nodeCounter = 1 := by
    intro hnone
    have hnil : t.addrs = [] := hnone.elim h.top.null_iff.mp h.bottom.null_iff.mp
    rw [haddrs, hnil] at hmem
    cases hmem
  let counted : Bintree D :=
    { this with recycle := recycle, duplicateCounter := this.duplicateCounter + 1 }
  obtain ⟨top, bottom, hext, hctop, hcbot⟩ : ∃ top bottom, insertExtremes cmp counted mem' i =
      some { counted with top := top, bottom := bottom } ∧ Cached top t'.addrs ∧ Cached bottom t'.addrs :=
    insertExtremes_cached hholds hmem (haddrs ▸ h.top.mem) (haddrs ▸ h.bottom.mem) hnull
  refine ⟨_, hext, ⟨rfl, hctop, hcbot, hcount, h.quiet, hholds, hinc, hrec, hpool, haddrs ▸ hdistinct⟩,
    fun hs hle => ?_, ?_⟩
  · have hone : counted.nodeCounter = 1 ↔ t'.size = 1 := by
      change this.nodeCounter = 1 ↔ _
      rw [hcount, ofNat_eq_one_iff hle]
    have hends := insertExtremes_merged order hholds hinc hentry hone
      (show counted.top = t'.addrs.getLast? from haddrs ▸ hs.top)
      (show counted.bottom = t'.addrs.head? from haddrs ▸ hs.bottom)
    rw [hext] at hends
    injection hends with hends
    rw [hends]
    exact ⟨haddrs ▸ hs.top, haddrs ▸ hs.bottom⟩
  · simp only [bintreeGetRefnum, counted]
    exact (Int32.add_assoc _ _ _).symm

/-- `_insert` on a node that the tree does not own. Whatever references the node
carries, the reference count grows by one. -/
theorem Represents.insert (order : TotalOrder cmp) {node : Addr} {e : Stored D}
    (h : Represents cmp this mem t q) (hi : mem.read node = some (nodeCell e none none))
    (hfresh : node ∉ t.addrs ++ q) :
    ∃ this' mem' t' q' i, insertRoot cmp this mem node = some (this', mem') ∧
      Represents cmp this' mem' t' q' ∧ (Sharp this t → t'.size ≤ 4294967296 → Sharp this' t') ∧
      Placed cmp node e t.inorder t'.inorder i ∧
      mem'.outside (t'.addrs ++ q') = mem.outside (node :: (t.addrs ++ q)) ∧
      bintreeGetRefnum this' = bintreeGetRefnum this + 1 := by
  have hnt : node ∉ t.addrs := fun hm => hfresh (List.mem_append_left _ hm)
  have hnq : node ∉ q := fun hm => hfresh (List.mem_append_right _ hm)
  have htop : this.top ≠ some node := fun hm => hnt (h.top.mem node hm)
  have hbot : this.bottom ≠ some node := fun hm => hnt (h.bottom.mem node hm)
  have hfuel : t.size < mem.size + 1 := Nat.lt_succ_of_le (h.holds.size_le h.nodup)
  obtain ⟨this1, mem', t', p, q', i, hrun, hp, hins⟩ := insertIntoTree_spec order hi h.holds
    h.increasing h.nodup hnt hnq h.recycle h.pooled htop hbot h.quiet hfuel
  have hroot : ∀ this2, insertExtremes cmp this1 mem' i = some this2 →
      insertRoot cmp this mem node = some ({ this2 with root := t'.ptr }, mem') := by
    intro this2 hext
    rw [insertRoot, h.root, hrun]
    simp [hext, hp]
  have hframe : mem'.outside (node :: (t.addrs ++ q)) = mem.outside (node :: (t.addrs ++ q)) := by
    apply Memory.outside_eq_of_agree
    intro b hb
    simp only [List.mem_cons, List.mem_append, not_or] at hb
    exact hins.frame b hb.2.1 hb.1
  obtain ⟨hholds, hplaced, hcounted, hpool, -⟩ := hins
  cases hcounted with
  | linked hthis =>
    subst hthis
    generalize hin : t.inorder = xs at hplaced
    generalize hin' : t'.inorder = xs' at hplaced
    cases hplaced with
    | merged x y a v same => exact absurd (by simp [Shape.addrs, hin]) hnt
    | fresh x y gap =>
      obtain ⟨this2, hext, hrep, hsharp, hrefnum⟩ := h.linked order hfresh gap hin hin' hholds hpool
      refine ⟨_, mem', t', q, node, hroot this2 hext, hrep, hsharp, hin' ▸ .fresh x y gap, ?_, hrefnum⟩
      rw [← hframe]
      apply Memory.outside_congr
      intro b
      simp only [Shape.addrs, hin, hin', List.map_append, List.map_cons, List.mem_append, List.mem_cons]
      tauto
  | merged recycle _ _ hne hthis hrec hkept =>
    subst hthis
    generalize hin : t.inorder = xs at hplaced
    generalize hin' : t'.inorder = xs' at hplaced
    cases hplaced with
    | fresh x y gap => exact absurd rfl hne
    | merged x y a v same =>
      have haddrs : t'.addrs = t.addrs := by simp [Shape.addrs, hin, hin']
      have hdistinct : (t.addrs ++ q').Nodup := by
        rcases hkept with rfl | ⟨rfl, -⟩
        · rw [← List.append_assoc]
          refine List.nodup_append.mpr ⟨h.distinct, by simp, fun b hb c hc => ?_⟩
          rw [List.mem_singleton.mp hc]
          exact ne_of_mem_of_not_mem hb hfresh
        · exact h.distinct
      obtain ⟨this2, hext, hrep, hsharp, hrefnum⟩ :=
        h.merged order same hin hin' hholds hrec hpool hdistinct
      refine ⟨_, mem', t', q', i, hroot this2 hext, hrep, hsharp, hin' ▸ .merged x y i v same, ?_, hrefnum⟩
      rw [haddrs, ← hframe]
      rcases hkept with rfl | ⟨rfl, hdead⟩
      · apply Memory.outside_congr
        intro b
        simp only [List.mem_append, List.mem_cons, List.not_mem_nil]
        tauto
      · rw [Memory.outside_cons_absent hdead]

end Devclego.Tree
