import Devclego.Foundation.Wrapping
import Devclego.Tree.Model

/-!
# What a tree record represents

`Represents` ties a `bintree_t` and the memory to a binary tree of entries and
to the queue of recycled nodes. It contains the search order, the node counter and
the separation of everything the record owns; the duplicate counter is not part of
it. It says of the caches only that they lead into the tree, which holds however
often the node counter has wrapped. That they are the ends of the tree is `Sharp`.
The walks of the model are specified against it here.
-/
namespace Devclego.Tree

open Foundation Puffers

variable {D : Type}

/-- What a node stores, with its references as the word they are. -/
abbrev Stored (D : Type) := Entry D Int32

/-- The cell of a node: its entry and its links. -/
def nodeCell (e : Stored D) (left right : Ptr) : Bintreenode D :=
  { data := e.data, left := left, right := right, ref := e.ref }

theorem nodeCell_inj (v v' : Stored D) (p p' r r' : Ptr) (h : nodeCell v p r = nodeCell v' p' r') :
    v = v' ∧ p = p' ∧ r = r' := by
  obtain ⟨data, ref⟩ := v
  obtain ⟨data', ref'⟩ := v'
  cases h
  exact ⟨rfl, rfl, rfl⟩

/-- The key of a node met in order. -/
def nodeKey (u : Addr × Stored D) : D := u.2.data

/-- A cache is null when there is no node, and else leads to one of them. -/
structure Cached (cached : Ptr) (addrs : List Addr) : Prop where
  null_iff : cached = none ↔ addrs = []
  mem : ∀ a, cached = some a → a ∈ addrs

structure Represents (cmp : D → D → Int) (this : Bintree D) (mem : Mem D)
    (t : Shape (Stored D)) (q : List Addr) : Prop where
  root : this.root = t.ptr
  top : Cached this.top t.addrs
  bottom : Cached this.bottom t.addrs
  count : this.nodeCounter = Int32.ofNat t.size
  quiet : this.duplicateNotifier = none
  holds : t.Holds nodeCell mem
  increasing : Increasing cmp nodeKey t.inorder
  recycle : this.recycle.Holds recycleSize q
  pooled : ∀ a ∈ q, (mem.read a).isSome
  distinct : (t.addrs ++ q).Nodup

/-- The caches are the ends of the tree. -/
structure Sharp (this : Bintree D) (t : Shape (Stored D)) : Prop where
  top : this.top = t.addrs.getLast?
  bottom : this.bottom = t.addrs.head?

variable {cmp : D → D → Int} {this : Bintree D} {mem mem' : Mem D} {t : Shape (Stored D)} {q : List Addr}

theorem cached_nil : Cached none [] := ⟨by simp, by simp⟩

theorem cached_getLast? (addrs : List Addr) : Cached addrs.getLast? addrs :=
  ⟨List.getLast?_eq_none_iff, fun _ ha => List.mem_of_getLast? ha⟩

theorem cached_head? (addrs : List Addr) : Cached addrs.head? addrs :=
  ⟨List.head?_eq_none_iff, fun _ ha => List.mem_of_head? ha⟩

theorem cached_some {a : Addr} {addrs : List Addr} (ha : a ∈ addrs) : Cached (some a) addrs := by
  refine ⟨by simp [List.ne_nil_of_mem ha], fun b hb => ?_⟩
  cases hb
  exact ha

theorem Represents.nodup (h : Represents cmp this mem t q) : t.addrs.Nodup :=
  (List.nodup_append.mp h.distinct).1

theorem Represents.apart (h : Represents cmp this mem t q) : t.addrs.Disjoint q :=
  List.disjoint_of_nodup_append h.distinct

theorem Represents.live (h : Represents cmp this mem t q) :
    ∀ a ∈ t.addrs ++ q, (mem.read a).isSome := by
  intro a ha
  rcases List.mem_append.mp ha with ht | hq
  · exact h.holds.live a ht
  · exact h.pooled a hq

/-- A representation only depends on the cells it owns. -/
theorem Represents.congr (h : Represents cmp this mem t q)
    (hag : ∀ a ∈ t.addrs ++ q, mem'.read a = mem.read a) : Represents cmp this mem' t q :=
  { h with
    holds := h.holds.congr fun a ha => hag a (by simp [ha])
    pooled := by
      intro a ha
      rw [hag a (by simp [ha])]
      exact h.pooled a ha }

theorem represents_make (mem : Mem D) : Represents cmp makeBintree mem .nil [] where
  root := rfl
  top := cached_nil
  bottom := cached_nil
  count := rfl
  quiet := rfl
  holds := trivial
  increasing := increasing_nil
  recycle := Datapuffer.holds_ctor (by decide)
  pooled := by simp
  distinct := by simp

theorem sharp_make : Sharp (makeBintree : Bintree D) .nil := ⟨rfl, rfl⟩

/-! ## Walks -/

theorem rightestLoop_spec {a : Addr} {v : Stored D} {l r : Shape (Stored D)}
    (h : (Shape.node a v l r).Holds nodeCell mem) {fuel : Nat} (hf : r.size < fuel) :
    rightestLoop mem fuel a = (Shape.node a v l r).addrs.getLast? := by
  induction r generalizing a v l fuel with
  | nil =>
    obtain ⟨ha, -, -⟩ := h
    obtain ⟨fuel, rfl⟩ : ∃ n, fuel = n + 1 := ⟨fuel - 1, by omega⟩
    simp [rightestLoop, ha, nodeCell]
  | node b w l' r' _ ihr =>
    obtain ⟨ha, -, hr⟩ := h
    rw [Shape.size_node] at hf
    obtain ⟨fuel, rfl⟩ : ∃ n, fuel = n + 1 := ⟨fuel - 1, by omega⟩
    have hlt : r'.size < fuel := by omega
    have hrec := ihr hr hlt
    simp only [rightestLoop, ha, nodeCell, Shape.ptr_node, Option.bind_eq_bind, Option.bind_some]
    rw [hrec]
    simp [List.getLast?_append, List.getLast?_cons]

theorem leftestLoop_spec {a : Addr} {v : Stored D} {l r : Shape (Stored D)}
    (h : (Shape.node a v l r).Holds nodeCell mem) {fuel : Nat} (hf : l.size < fuel) :
    leftestLoop mem fuel a = (Shape.node a v l r).addrs.head? := by
  induction l generalizing a v r fuel with
  | nil =>
    obtain ⟨ha, -, -⟩ := h
    obtain ⟨fuel, rfl⟩ : ∃ n, fuel = n + 1 := ⟨fuel - 1, by omega⟩
    simp [leftestLoop, ha, nodeCell]
  | node b w l' r' ihl _ =>
    obtain ⟨ha, hl, -⟩ := h
    rw [Shape.size_node] at hf
    obtain ⟨fuel, rfl⟩ : ∃ n, fuel = n + 1 := ⟨fuel - 1, by omega⟩
    have hlt : l'.size < fuel := by omega
    have hrec := ihl hl hlt
    simp only [leftestLoop, ha, nodeCell, Shape.ptr_node, Option.bind_eq_bind, Option.bind_some]
    rw [hrec]
    simp [List.head?_append]

theorem getRightestValue_spec (h : t.Holds nodeCell mem) (hs : t.size ≤ mem.size) :
    getRightestValue mem t.ptr = some t.addrs.getLast? := by
  cases t with
  | nil => rfl
  | node a v l r =>
    have hr : r.size < mem.size + 1 := by rw [Shape.size_node] at hs; omega
    simp only [getRightestValue, Shape.ptr_node, rightestLoop_spec h hr]
    simp [List.getLast?_append, List.getLast?_cons]

theorem getLeftestValue_spec (h : t.Holds nodeCell mem) (hs : t.size ≤ mem.size) :
    getLeftestValue mem t.ptr = some t.addrs.head? := by
  cases t with
  | nil => rfl
  | node a v l r =>
    have hl : l.size < mem.size + 1 := by rw [Shape.size_node] at hs; omega
    simp only [getLeftestValue, Shape.ptr_node, leftestLoop_spec h hl]
    cases hh : l.addrs.head? <;> simp [List.head?_append, hh]

/-- The path walked by a search for `data`: smaller keys to its left, larger
keys to its right. -/
structure Descent (cmp : D → D → Int) (data : D) (k : Trail (Stored D)) : Prop where
  before : ∀ u ∈ k.before, 0 < cmp data (nodeKey u)
  after : ∀ u ∈ k.after, cmp data (nodeKey u) < 0

theorem Descent.goLeft (order : TotalOrder cmp) {data : D} {k : Trail (Stored D)} {a : Addr}
    {v : Stored D} {r : Shape (Stored D)} (h : Descent cmp data k) (hv : cmp data v.data < 0)
    (hr : ∀ u ∈ r.inorder, cmp v.data (nodeKey u) < 0) :
    Descent cmp data (.goLeft a v r :: k) := by
  refine ⟨h.before, ?_⟩
  intro u hu
  simp only [Trail.after, List.cons_append, List.mem_cons, List.mem_append] at hu
  rcases hu with rfl | hu | hu
  · exact hv
  · exact order.lt_trans hv (hr u hu)
  · exact h.after u hu

theorem Descent.goRight (order : TotalOrder cmp) {data : D} {k : Trail (Stored D)} {a : Addr}
    {v : Stored D} {l : Shape (Stored D)} (h : Descent cmp data k) (hv : 0 < cmp data v.data)
    (hl : ∀ u ∈ l.inorder, cmp (nodeKey u) v.data < 0) :
    Descent cmp data (.goRight a v l :: k) := by
  refine ⟨?_, h.after⟩
  intro u hu
  simp only [Trail.before, List.mem_append, List.mem_singleton] at hu
  rcases hu with hu | hu | rfl
  · exact h.before u hu
  · have hv' : cmp v.data data < 0 := (order.antisymm _ _).mpr hv
    exact (order.antisymm _ _).mp (order.lt_trans (hl u hu) hv')
  · exact hv

/-- Following the order leads to an equal key or to an empty subtree. -/
theorem exists_descent (order : TotalOrder cmp) (data : D) {k : Trail (Stored D)}
    (hinc : Increasing cmp nodeKey t.inorder) (hd : Descent cmp data k) :
    ∃ k' t', Trail.plug k t = Trail.plug k' t' ∧ Descent cmp data k' ∧
      (t' = .nil ∨ ∃ a v l r, t' = .node a v l r ∧ cmp data v.data = 0) := by
  induction t generalizing k with
  | nil => exact ⟨k, .nil, rfl, hd, Or.inl rfl⟩
  | node a v l r ihl ihr =>
    have hgap : Gap cmp nodeKey v.data l.inorder r.inorder := hinc.gap
    have hincl := hinc.sublist (List.sublist_append_left l.inorder _)
    have hincr := hinc.remove.sublist (List.sublist_append_right l.inorder r.inorder)
    rcases Int.lt_trichotomy (cmp data v.data) 0 with hlt | heq | hgt
    · exact ihl hincl (hd.goLeft order (a := a) hlt hgap.right)
    · exact ⟨k, .node a v l r, rfl, hd, Or.inr ⟨a, v, l, r, rfl, heq⟩⟩
    · exact ihr hincr (hd.goRight order (a := a) hgt hgap.left)

/-- Every node's own path is the one a search for its key walks. -/
theorem descent_of_increasing (order : TotalOrder cmp) {k : Trail (Stored D)} {a : Addr} {v : Stored D}
    {l r : Shape (Stored D)} {data : D}
    (hinc : Increasing cmp nodeKey (Trail.plug k (.node a v l r)).inorder)
    (hdata : cmp data v.data = 0) : Descent cmp data k := by
  rw [Trail.focus_inorder] at hinc
  have hgap : Gap cmp nodeKey v.data _ _ := hinc.gap
  constructor
  · intro u hu
    have hlt := hgap.left u (List.mem_append_left _ hu)
    have hlt' := (order.congr_right ((order.eq_comm _ _).mp hdata) (nodeKey u)).1.mp hlt
    exact (order.antisymm _ _).mp hlt'
  · intro u hu
    have hlt := hgap.right u (List.mem_append_right _ hu)
    exact (order.congr_left ((order.eq_comm _ _).mp hdata) (nodeKey u)).1.mp hlt

/-- The search loop follows the path and keeps the parent. -/
theorem searchLoop_descent {data : D} {k : Trail (Stored D)}
    (h : (Trail.plug k t).Holds nodeCell mem) (hd : Descent cmp data k) (fuel : Nat) :
    searchLoop cmp mem data (fuel + k.length) (Trail.plug k t).ptr none =
      searchLoop cmp mem data fuel t.ptr (Trail.parent k) := by
  induction k generalizing t fuel with
  | nil => rfl
  | cons c k ih =>
    have hread := ((Trail.holds_fill c t).mp ((Trail.holds_plug k _).mp h).1).2.1
    have hstep : searchLoop cmp mem data (fuel + 1) (c.fill t).ptr (Trail.parent k) =
        searchLoop cmp mem data fuel t.ptr (some c.addr) := by
      rw [Crumb.ptr_fill]
      cases c with
      | goLeft a v r =>
        have hv : cmp data v.data < 0 := hd.after (a, v) (by simp [Trail.after])
        have hv0 : cmp data v.data ≠ 0 := by omega
        simp only [Crumb.addr, Crumb.link, nodeCell] at hread
        simp [searchLoop, Crumb.addr, hread, hv, hv0]
      | goRight a v l =>
        have hv : 0 < cmp data v.data := hd.before (a, v) (by simp [Trail.before])
        have hv0 : cmp data v.data ≠ 0 := by omega
        have hvn : ¬ cmp data v.data < 0 := by omega
        simp only [Crumb.addr, Crumb.link, nodeCell] at hread
        simp [searchLoop, Crumb.addr, hread, hv0, hvn]
    have hd' : Descent cmp data k := by
      cases c with
      | goLeft a v r => exact ⟨hd.before, fun u hu => hd.after u (by simp [Trail.after, hu])⟩
      | goRight a v l => exact ⟨fun u hu => hd.before u (by simp [Trail.before, hu]), hd.after⟩
    have hfuel : fuel + (c :: k).length = fuel + 1 + k.length := by simp; omega
    rw [hfuel, Trail.plug, ih h hd' (fuel + 1), hstep]
    rfl

theorem Represents.searchValue_descent {data : D} {k : Trail (Stored D)} {s : Shape (Stored D)}
    (h : Represents cmp this mem (Trail.plug k s) q) (hd : Descent cmp data k) :
    ∃ fuel, searchValue cmp this mem data = searchLoop cmp mem data (fuel + 1) s.ptr k.parent := by
  have hlen : k.length ≤ mem.size := by
    have h1 := Trail.length_le_addrs k
    have h2 : (Trail.addrs k).length ≤ (Trail.plug k s).addrs.length := by
      simp [Trail.addrs, Trail.addrs_plug]
    have h3 := h.holds.size_le h.nodup
    rw [Shape.length_addrs] at h2
    omega
  obtain ⟨n, hn⟩ : ∃ n, mem.size = n + k.length := ⟨mem.size - k.length, by omega⟩
  refine ⟨n, ?_⟩
  rw [searchValue, h.root, hn, show n + k.length + 1 = n + 1 + k.length by omega]
  exact searchLoop_descent h.holds hd (n + 1)

/-- The search finds the node of an equal key, with its parent. -/
theorem Represents.search_found (order : TotalOrder cmp) {data : D} {k : Trail (Stored D)} {a : Addr}
    {v : Stored D} {l r : Shape (Stored D)} (h : Represents cmp this mem (Trail.plug k (.node a v l r)) q)
    (hdata : cmp data v.data = 0) : searchValue cmp this mem data = some (some a, k.parent) := by
  obtain ⟨fuel, hs⟩ := h.searchValue_descent (descent_of_increasing order h.increasing hdata)
  have hread := ((Trail.holds_plug k _).mp h.holds).1.1
  rw [hs]
  simp [searchLoop, hread, nodeCell, hdata]

/-- A represented tree holds the key at a node, or the search ends at null. -/
theorem Represents.search (order : TotalOrder cmp) (h : Represents cmp this mem t q) (data : D) :
    (∃ k a v l r, t = Trail.plug k (.node a v l r) ∧ cmp data v.data = 0) ∨
    ((∀ u ∈ t.inorder, cmp data (nodeKey u) ≠ 0) ∧
      ∃ p, searchValue cmp this mem data = some (none, p)) := by
  obtain ⟨k, s, he, hd, hs⟩ := exists_descent order data (k := []) h.increasing
    ⟨by simp [Trail.before], by simp [Trail.after]⟩
  change t = _ at he
  subst he
  rcases hs with rfl | ⟨a, v, l, r, rfl, hv⟩
  · refine Or.inr ⟨?_, k.parent, ?_⟩
    · intro u hu
      rw [Trail.inorder_plug, Shape.inorder_nil, List.nil_append, List.mem_append] at hu
      rcases hu with hu | hu
      · have := hd.before u hu
        omega
      · have := hd.after u hu
        omega
    · obtain ⟨fuel, hs⟩ := h.searchValue_descent hd
      rw [hs]
      rfl
  · exact Or.inl ⟨k, a, v, l, r, rfl, hv⟩

end Devclego.Tree
