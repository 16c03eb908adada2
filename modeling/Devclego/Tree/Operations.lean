import Devclego.Foundation.Machine
import Devclego.Tree.Removal
import Devclego.Tree.Insertion

/-!
# Operations as tally operations

Each function of `lib_bintree.h` changes the entries of a represented tree as the
tally operation of the same meaning does, gives the caller what that operation
gives, and touches no memory but its own. The reference count is followed
separately: it moves by what the code counts, `deletedRefs` and `poppedRefs`,
which need not be what the tally loses.
-/
namespace Devclego.Tree

open Foundation Puffers

variable {D : Type}

/-- What `bintree_delete_value` takes off the reference count. -/
def deletedRefs (cmp : D → D → Int) (this : Bintree D) (mem : Mem D) (data : D) : Int32 :=
  match storedRef cmp this mem data with
  | none => 0
  | some r => if 1 < r then 1 else (unlinkedRef cmp this mem data).getD 0

/-- What a pop takes off the reference count. -/
def poppedRefs (cmp : D → D → Int) (this : Bintree D) (mem : Mem D) (data : D) : Int32 :=
  (unlinkedRef cmp this mem data).getD 0

variable {cmp : D → D → Int} {this : Bintree D} {mem : Mem D} {t : Shape (Stored D)} {q : List Addr}

theorem Represents.sorted (h : Represents cmp this mem t q) : Increasing cmp Entry.data t.vals :=
  (increasing_map Prod.snd t.inorder).mpr h.increasing

/-- A key is stored at one node, and the search finds it, or it is absent. -/
theorem Represents.cases (order : TotalOrder cmp) (h : Represents cmp this mem t q) (data : D) :
    (∃ x a v y, t.inorder = x ++ (a, v) :: y ∧ cmp data v.data = 0 ∧
      t.vals = x.map Prod.snd ++ v :: y.map Prod.snd ∧ Tally.find cmp t.vals data = some v ∧
      (∃ p, searchValue cmp this mem data = some (some a, p)) ∧
      storedRef cmp this mem data = some v.ref) ∨
    (Tally.find cmp t.vals data = none ∧ ∃ p, searchValue cmp this mem data = some (none, p)) := by
  rcases h.search order data with ⟨k, a, v, l, r, rfl, hv⟩ | ⟨habs, hs⟩
  · have hsplit := Trail.focus_inorder k a v l r
    have hvals : (Trail.plug k (.node a v l r)).vals =
        (k.before ++ l.inorder).map Prod.snd ++ v :: (r.inorder ++ k.after).map Prod.snd := by
      rw [Shape.vals, hsplit, List.map_append, List.map_cons]
    obtain ⟨hs, -, hr⟩ := h.at_focus order hv
    refine Or.inl ⟨_, a, v, _, hsplit, hv, hvals, ?_, ⟨_, hs⟩, hr⟩
    have hinc := h.sorted
    rw [hvals] at hinc ⊢
    exact Tally.find_found order hinc hv
  · refine Or.inr ⟨Tally.find_eq_none_iff.mpr fun v hv => ?_, hs⟩
    obtain ⟨u, hu, rfl⟩ := List.mem_map.mp hv
    exact habs u hu

theorem Represents.storedRef (order : TotalOrder cmp) (h : Represents cmp this mem t q) (data : D) :
    storedRef cmp this mem data = (Tally.find cmp t.vals data).map Entry.ref := by
  rcases h.cases order data with ⟨x, a, v, y, -, -, -, hfind, -, hstored⟩ | ⟨hnone, p, hp⟩
  · rw [hstored, hfind]
    rfl
  · simp [Tree.storedRef, hp, hnone]

/-- What the nodes below a pointer store, in order. -/
def entriesBelow : Nat → Mem D → Ptr → List (Stored D)
  | 0, _, _ => []
  | _ + 1, _, none => []
  | fuel + 1, mem, some node =>
    match mem.read node with
    | none => []
    | some n => entriesBelow fuel mem n.left ++ ⟨n.data, n.ref⟩ :: entriesBelow fuel mem n.right

def storedEntries (this : Bintree D) (mem : Mem D) : List (Stored D) :=
  entriesBelow (mem.size + 1) mem this.root

theorem entriesBelow_spec (h : t.Holds nodeCell mem) {fuel : Nat} (hf : t.size < fuel) :
    entriesBelow fuel mem t.ptr = t.vals := by
  induction t generalizing fuel with
  | nil => cases fuel <;> rfl
  | node a v l r ihl ihr =>
    rw [Shape.size_node] at hf
    obtain ⟨fuel, rfl⟩ : ∃ n, fuel = n + 1 := ⟨fuel - 1, by omega⟩
    obtain ⟨ha, hl, hr⟩ := h
    have hleft := ihl hl (show l.size < fuel by omega)
    have hright := ihr hr (show r.size < fuel by omega)
    simp only [entriesBelow, Shape.ptr_node, ha, nodeCell, hleft, hright, Shape.vals_node]

theorem Represents.storedEntries (h : Represents cmp this mem t q) : storedEntries this mem = t.vals := by
  rw [Tree.storedEntries, h.root]
  exact entriesBelow_spec h.holds (Nat.lt_succ_of_le (h.holds.size_le h.nodup))

/-! ## Insertion -/

theorem Placed.vals (order : TotalOrder cmp) {insert i : Addr} {e : Stored D}
    {xs xs' : List (Addr × Stored D)} (h : Placed cmp insert e xs xs' i)
    (hinc : Increasing cmp nodeKey xs) : xs'.map Prod.snd = Tally.add cmp e (xs.map Prod.snd) := by
  cases h with
  | fresh x y gap =>
    have hg : Gap cmp Entry.data e.data (x.map Prod.snd) (y.map Prod.snd) := by
      constructor
      · intro v hv
        obtain ⟨u, hu, rfl⟩ := List.mem_map.mp hv
        exact gap.left u hu
      · intro v hv
        obtain ⟨u, hu, rfl⟩ := List.mem_map.mp hv
        exact gap.right u hu
    rw [List.map_append, List.map_append, List.map_cons, Tally.add_fresh order hg]
  | merged x y a v same =>
    have hinc' := (increasing_map Prod.snd _).mpr hinc
    rw [List.map_append, List.map_cons] at hinc' ⊢
    rw [List.map_append, List.map_cons, Tally.add_merged order hinc' same]

theorem Represents.insertNode (order : TotalOrder cmp) {node : Addr} {e : Stored D}
    (h : Represents cmp this mem t q) (hi : mem.read node = some (nodeCell e none none))
    (hfresh : node ∉ t.addrs ++ q) :
    ∃ this' mem' t' q', bintreeInsertNode cmp this mem node = some (this', mem') ∧
      Represents cmp this' mem' t' q' ∧ (Sharp this t → t'.size ≤ 4294967296 → Sharp this' t') ∧
      t'.vals = Tally.add cmp e t.vals ∧
      mem'.outside (t'.addrs ++ q') = mem.outside (node :: (t.addrs ++ q)) ∧
      bintreeGetRefnum this' = bintreeGetRefnum this + 1 := by
  obtain ⟨this', mem', t', q', i, hrun, hrep, hsharp, hplaced, hout, href⟩ := h.insert order hi hfresh
  exact ⟨this', mem', t', q', hrun, hrep, hsharp, hplaced.vals order h.increasing, hout, href⟩

theorem Represents.insertData (order : TotalOrder cmp) (h : Represents cmp this mem t q) (data : D) :
    ∃ this' mem' t' q', bintreeInsertData cmp this mem data = some (this', mem') ∧
      Represents cmp this' mem' t' q' ∧ (Sharp this t → t'.size ≤ 4294967296 → Sharp this' t') ∧
      t'.vals = Tally.add cmp ⟨data, 1⟩ t.vals ∧
      mem'.outside (t'.addrs ++ q') = mem.outside (t.addrs ++ q) ∧
      bintreeGetRefnum this' = bintreeGetRefnum this + 1 := by
  obtain ⟨this1, mem1, a, q1, hmake, hthis, hrep1, hread, hfresh, hout1⟩ := h.make data
  obtain ⟨this', mem', t', q', hrun, hrep, hsharp, hvals, hout, href⟩ := hrep1.insertNode order hread hfresh
  rw [hthis] at hsharp href
  refine ⟨this', mem', t', q', ?_, hrep, fun hs => hsharp ⟨hs.top, hs.bottom⟩, hvals, hout.trans hout1, href⟩
  rw [bintreeInsertNode] at hrun
  simp only [bintreeInsertData, hmake, Option.bind_eq_bind, Option.bind_some, hrun]

/-! ## Removal -/

/-- One node less, seen in the node counter. -/
theorem Represents.count_removed {this' : Bintree D} {mem' : Mem D} {t' : Shape (Stored D)} {q' : List Addr}
    {v : Stored D} {x y : List (Stored D)} (h : Represents cmp this mem t q)
    (h' : Represents cmp this' mem' t' q') (hvals : t.vals = x ++ v :: y) (hvals' : t'.vals = x ++ y) :
    this'.nodeCounter = this.nodeCounter - 1 := by
  have hsize : t.size = t'.size + 1 := by
    rw [← Shape.length_vals, ← Shape.length_vals, hvals, hvals']
    simp only [List.length_append, List.length_cons]
    omega
  rw [h'.count, h.count, hsize, ofNat_succ, Int32.add_sub_cancel]

/-- The last reference of a key moves the count as the code counts it, if the node held
one reference. -/
theorem Represents.deleteValue (order : TotalOrder cmp) (h : Represents cmp this mem t q) (data : D) :
    ∃ this' mem' t' q', bintreeDeleteValue cmp this mem data = some (this', mem') ∧
      Represents cmp this' mem' t' q' ∧ (Sharp this t → Sharp this' t') ∧
      t'.vals = Tally.takeOne cmp data t.vals ∧
      mem'.outside (t'.addrs ++ q') = mem.outside (t.addrs ++ q) ∧
      ((∀ e ∈ t.vals, 0 < e.ref) →
        bintreeGetRefnum this' = bintreeGetRefnum this - deletedRefs cmp this mem data) := by
  rcases h.cases order data with ⟨x, a, v, y, ht, hv, hvals, hfind, -, hstored⟩ | ⟨hnone, hs⟩
  · have hinc := h.sorted
    rw [hvals] at hinc
    have htake : Tally.takeOne cmp data t.vals =
        x.map Prod.snd ++ ((Tally.lessOne v).toList ++ y.map Prod.snd) := by
      rw [hvals, Tally.takeOne, Tally.adjust_found order hinc hv]
    by_cases h1 : 1 < v.ref
    · obtain ⟨mem', t', hrun, hrep, hin, haddrs, hout⟩ := derefFromTree_survive order h ht hv h1
      refine ⟨_, mem', t', q, hrun, hrep, fun hs => ⟨haddrs ▸ hs.top, haddrs ▸ hs.bottom⟩, ?_, hout, fun _ => ?_⟩
      · rw [htake]
        simp [Tally.lessOne, h1, Shape.vals, hin]
      · simp only [bintreeGetRefnum, deletedRefs, hstored, h1, ↓reduceIte]
        grind
    · obtain ⟨this', mem', t', q', u, hrun, hrep, hsharp, hvals', hout, hunl, hdup⟩ :=
        derefFromTree_last order h ht hv h1
      refine ⟨this', mem', t', q', hrun, hrep, hsharp, ?_, hout, fun hpos => ?_⟩
      · simp [htake, Tally.lessOne, h1, hvals']
      · have hone : v.ref = 1 := eq_one_of_pos (hpos v (by simp [hvals])) h1
        have hcount := h.count_removed hrep hvals hvals'
        simp only [bintreeGetRefnum, deletedRefs, hstored, h1, hunl, hdup hone, hcount, ↓reduceIte,
          Option.getD_some]
        grind
  · refine ⟨this, mem, t, q, derefFromTree_absent hs, h, id, ?_, rfl, fun _ => ?_⟩
    · rw [Tally.takeOne, Tally.adjust_absent (Tally.find_eq_none_iff.mp hnone)]
    · obtain ⟨p, hp⟩ := hs
      simp [deletedRefs, Tree.storedRef, hp]

/-- What a pop leaves behind: nothing happened, or the entry is in the caller's
hands. -/
inductive Handed (cmp : D → D → Int) (mem : Mem D) (t : Shape (Stored D)) (q : List Addr)
    (this : Bintree D) : Bintree D → Mem D → Shape (Stored D) → Ptr → Option (Stored D) → Prop where
  | absent : Handed cmp mem t q this this mem t none none
  | popped (this' : Bintree D) (mem' : Mem D) (t' : Shape (Stored D)) (b : Addr) (e : Stored D)
      (h : Popped cmp this mem t q this' mem' t' b e) :
      Handed cmp mem t q this this' mem' t' (some b) (some e)

theorem Represents.popNode (order : TotalOrder cmp) (h : Represents cmp this mem t q) (data : D) :
    ∃ this' mem' t' p, bintreePopNode cmp this mem data = some (this', mem', p) ∧
      Handed cmp mem t q this this' mem' t' p (Tally.find cmp t.vals data) ∧
      t'.vals = Tally.drop cmp data t.vals ∧
      bintreeGetRefnum this' = bintreeGetRefnum this - poppedRefs cmp this mem data := by
  rcases h.cases order data with ⟨x, a, v, y, ht, hv, hvals, hfind, -, -⟩ | ⟨hnone, hs⟩
  · obtain ⟨this', mem', t', b, u, hrun, hpop, hvals', hunl, hdup⟩ := popFromTree_found order h ht hv
    have hinc := h.sorted
    rw [hvals] at hinc
    refine ⟨this', mem', t', some b, hrun, hfind ▸ .popped this' mem' t' b v hpop, ?_, ?_⟩
    · rw [hvals', hvals, Tally.drop, Tally.adjust_found order hinc hv]
      rfl
    · have hcount := h.count_removed hpop.represents hvals hvals'
      simp only [bintreeGetRefnum, poppedRefs, hunl, hdup, hcount, Option.getD_some]
      grind
  · refine ⟨this, mem, t, none, popFromTree_absent 1 hs, hnone ▸ .absent, ?_, ?_⟩
    · rw [Tally.drop, Tally.adjust_absent (Tally.find_eq_none_iff.mp hnone)]
    · obtain ⟨p, hp⟩ := hs
      simp [poppedRefs, unlinkedRef, hp]

theorem Represents.trashNode (h : Represents cmp this mem t q) {node : Addr} {n : Bintreenode D}
    (hread : mem.read node = some n) (hfresh : node ∉ t.addrs ++ q) :
    ∃ this' mem' q', bintreeTrashNode this mem node = some (this', mem') ∧ Represents cmp this' mem' t q' ∧
      (Sharp this t → Sharp this' t) ∧ mem'.outside (t.addrs ++ q') = mem.outside (node :: (t.addrs ++ q)) := by
  obtain ⟨recycle, mem', q', hrun, hrep, hout⟩ :=
    Represents.trash (c := this.nodeCounter) h (h.refresh_apart hfresh mem) hread hfresh
  exact ⟨_, mem', q', hrun, hrep, fun hs => ⟨hs.top, hs.bottom⟩, hout⟩

theorem Represents.hasValue (order : TotalOrder cmp) (h : Represents cmp this mem t q) (data : D) :
    bintreeHasValue cmp this mem data = some (Tally.find cmp t.vals data).isSome := by
  rcases h.cases order data with ⟨x, a, v, y, -, -, -, hfind, ⟨p, hp⟩, -⟩ | ⟨hnone, p, hp⟩
  · simp [bintreeHasValue, hp, hfind]
  · simp [bintreeHasValue, hp, hnone]

/-! ## The cached nodes -/

/-- What the node of a cache stores. -/
def cachedEntry (mem : Mem D) (cached : Ptr) : Option (Stored D) := do
  let n ← mem.load cached
  some ⟨n.data, n.ref⟩

/-- A cache is null for the empty tree and else leads to one of its entries. -/
theorem Represents.cached_cases (h : Represents cmp this mem t q) {cached : Ptr}
    (hc : Cached cached t.addrs) :
    (cached = none ∧ t.inorder = [] ∧ cachedEntry mem cached = none) ∨
      ∃ a v l r, cached = some a ∧ (a, v) ∈ t.inorder ∧ mem.read a = some (nodeCell v l r) ∧
        cachedEntry mem cached = some v := by
  cases cached with
  | none => exact Or.inl ⟨rfl, by simpa [Shape.addrs] using hc.null_iff.mp rfl, rfl⟩
  | some a =>
    obtain ⟨⟨b, v⟩, hv, rfl⟩ := List.mem_map.mp (hc.mem a rfl)
    obtain ⟨l, r, hread⟩ := h.holds.read hv
    exact Or.inr ⟨b, v, l, r, rfl, hv, hread, by simp [cachedEntry, hread, nodeCell]⟩

theorem Represents.cachedEntry_mem (h : Represents cmp this mem t q) {cached : Ptr}
    (hc : Cached cached t.addrs) {v : Stored D} (hv : cachedEntry mem cached = some v) : v ∈ t.vals := by
  rcases h.cached_cases hc with ⟨-, -, hnone⟩ | ⟨a, u, l, r, -, hu, -, hsome⟩
  · rw [hnone] at hv
    cases hv
  · cases hsome.symm.trans hv
    exact List.mem_map.mpr ⟨(a, v), hu, rfl⟩

/-- The entry of a cache, from the node the cache is the address of. -/
theorem Represents.cachedEntry_eq (h : Represents cmp this mem t q) {cached : Ptr}
    {u : Option (Addr × Stored D)} (hc : cached = u.map Prod.fst) (hu : ∀ v ∈ u, v ∈ t.inorder) :
    cachedEntry mem cached = u.map Prod.snd := by
  cases u with
  | none => rw [hc]; rfl
  | some u =>
    obtain ⟨l, r, hread⟩ := h.holds.read (hu u rfl)
    simp [cachedEntry, hc, hread, nodeCell]

theorem Represents.cachedEntry_top (h : Represents cmp this mem t q) (hs : Sharp this t) :
    cachedEntry mem this.top = t.vals.getLast? := by
  rw [Shape.vals, List.getLast?_map]
  exact h.cachedEntry_eq (by rw [hs.top, Shape.addrs, List.getLast?_map]) fun _ hv => List.mem_of_getLast? hv

theorem Represents.cachedEntry_bottom (h : Represents cmp this mem t q) (hs : Sharp this t) :
    cachedEntry mem this.bottom = t.vals.head? := by
  rw [Shape.vals, List.head?_map]
  exact h.cachedEntry_eq (by rw [hs.bottom, Shape.addrs, List.head?_map]) fun _ hv => List.mem_of_head? hv

theorem Represents.getTopData (h : Represents cmp this mem t q) :
    bintreeGetTopData this mem = some ((cachedEntry mem this.top).map Entry.data) := by
  rcases h.cached_cases h.top with ⟨htop, -, hentry⟩ | ⟨a, v, l, r, htop, -, hread, hentry⟩
  · rw [bintreeGetTopData, hentry, htop]
    rfl
  · rw [bintreeGetTopData, hentry, htop]
    simp [hread, nodeCell]

theorem Represents.getBottomData (h : Represents cmp this mem t q) :
    bintreeGetBottomData this mem = some ((cachedEntry mem this.bottom).map Entry.data) := by
  rcases h.cached_cases h.bottom with ⟨hbot, -, hentry⟩ | ⟨a, v, l, r, hbot, -, hread, hentry⟩
  · rw [bintreeGetBottomData, hentry, hbot]
    rfl
  · rw [bintreeGetBottomData, hentry, hbot]
    simp [hread, nodeCell]

/-- Popping the node of a given entry, if there is one. -/
def popAt (cmp : D → D → Int) (this : Bintree D) (mem : Mem D) :
    Option (Stored D) → Option (Bintree D × Mem D × Ptr)
  | none => some (this, mem, none)
  | some e => bintreePopNode cmp this mem e.data

/-- Deleting one reference of a given entry, if there is one. -/
def deleteAt (cmp : D → D → Int) (this : Bintree D) (mem : Mem D) :
    Option (Stored D) → Option (Bintree D × Mem D × Option D)
  | none => some (this, mem, none)
  | some e => (bintreeDeleteValue cmp this mem e.data).map fun (this, mem) => (this, mem, some e.data)

theorem Represents.popTopNode (h : Represents cmp this mem t q) :
    bintreePopTopNode cmp this mem = popAt cmp this mem (cachedEntry mem this.top) := by
  rcases h.cached_cases h.top with ⟨htop, -, hentry⟩ | ⟨a, v, l, r, htop, -, hread, hentry⟩
  · rw [hentry]
    simp [bintreePopTopNode, popAt, htop]
  · rw [hentry]
    simp [bintreePopTopNode, popAt, bintreePopNode, htop, hread, nodeCell]

theorem Represents.popBottomNode (h : Represents cmp this mem t q) :
    bintreePopBottomNode cmp this mem = popAt cmp this mem (cachedEntry mem this.bottom) := by
  rcases h.cached_cases h.bottom with ⟨hbot, -, hentry⟩ | ⟨a, v, l, r, hbot, -, hread, hentry⟩
  · rw [hentry]
    simp [bintreePopBottomNode, popAt, hbot]
  · rw [hentry]
    simp [bintreePopBottomNode, popAt, bintreePopNode, hbot, hread, nodeCell]

theorem Represents.popTopData (h : Represents cmp this mem t q) :
    bintreePopTopData cmp this mem = deleteAt cmp this mem (cachedEntry mem this.top) := by
  rcases h.cached_cases h.top with ⟨htop, -, hentry⟩ | ⟨a, v, l, r, htop, -, hread, hentry⟩
  · rw [hentry]
    simp [bintreePopTopData, deleteAt, htop]
  · rw [hentry]
    cases hd : derefFromTree cmp this mem v.data <;>
      simp [bintreePopTopData, deleteAt, bintreeDeleteValue, htop, hread, nodeCell, hd]

theorem Represents.popBottomData (h : Represents cmp this mem t q) :
    bintreePopBottomData cmp this mem = deleteAt cmp this mem (cachedEntry mem this.bottom) := by
  rcases h.cached_cases h.bottom with ⟨hbot, -, hentry⟩ | ⟨a, v, l, r, hbot, -, hread, hentry⟩
  · rw [hentry]
    simp [bintreePopBottomData, deleteAt, hbot]
  · rw [hentry]
    cases hd : derefFromTree cmp this mem v.data <;>
      simp [bintreePopBottomData, deleteAt, bintreeDeleteValue, hbot, hread, nodeCell, hd]

end Devclego.Tree
