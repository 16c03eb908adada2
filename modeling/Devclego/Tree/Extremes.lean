import Devclego.Tree.FiniteMap

/-!
# The cached extremes

`top` and `bottom` are aliases of nodes that four places of the code repair. They
are the reachable nodes of the largest and the smallest key, and the functions that
start from them act on that key, in every state of a run whose references fit and
whose nodes the counter can tell from one. One structure says this for either end.
-/
namespace Devclego.Tree

open Foundation

variable {D : Type}

/-- The node cached at one end of the order, and what the functions that use it
return: `get`, `popData` and `popNode` are their results in this state. -/
structure ExtremeEnd (cmp : D → D → Int) (le : D → D → Prop) (this : Bintree D) (mem : Mem D)
    (cached : Ptr) (get : Option (Option D)) (popData : Option (Bintree D × Mem D × Option D))
    (popNode : Option (Bintree D × Mem D × Ptr)) : Prop where
  null_iff : cached = none ↔ this.root = none
  reached : ∀ a, cached = some a → Reaches mem this.root a ∧ (mem.read a).isSome
  extreme : ∀ a n b n', cached = some a → mem.read a = some n → Reaches mem this.root b →
    mem.read b = some n' → le n'.data n.data
  null_get : cached = none →
    get = some none ∧ popData = some (this, mem, none) ∧ popNode = some (this, mem, none)
  get_eq : ∀ a n, cached = some a → mem.read a = some n → get = some (some n.data)
  popData_takes : ∀ a n m, cached = some a → mem.read a = some n → ReadsAs cmp this mem m →
    ∃ this' mem', popData = some (this', mem', some n.data) ∧
      ReadsAs cmp this' mem' (mapTake cmp m n.data)
  popNode_removes : ∀ a n m, cached = some a → mem.read a = some n → ReadsAs cmp this mem m →
    ∃ this' mem' b, popNode = some (this', mem', some b) ∧
      ReadsAs cmp this' mem' (mapRemove cmp m n.data)

/-- Both caches are right. -/
structure ExtremesRight (cmp : D → D → Int) (this : Bintree D) (mem : Mem D) : Prop where
  top : ExtremeEnd cmp (fun k k' => cmp k k' ≤ 0) this mem this.top (bintreeGetTopData this mem)
    (bintreePopTopData cmp this mem) (bintreePopTopNode cmp this mem)
  bottom : ExtremeEnd cmp (fun k k' => cmp k' k ≤ 0) this mem this.bottom
    (bintreeGetBottomData this mem) (bintreePopBottomData cmp this mem)
    (bintreePopBottomNode cmp this mem)

variable {cmp : D → D → Int} {this : Bintree D} {mem : Mem D} {t : Shape (Stored D)} {q : List Addr}

theorem Represents.readsAs (h : Represents cmp this mem t q) :
    ReadsAs cmp this mem (Tally.find cmp (Tally.widen t.vals)) :=
  ⟨t, h.root, h.holds, h.nodup, h.increasing, rfl⟩

/-- The map of a tree record is the map of the tree it represents. -/
theorem Represents.readsAs_unique (h : Represents cmp this mem t q) {m : D → Option (Entry D)}
    (hm : ReadsAs cmp this mem m) : m = Tally.find cmp (Tally.widen t.vals) := by
  obtain ⟨t', hroot, h', -, -, rfl⟩ := hm
  rw [h.holds.unique nodeCell_inj h' (h.root.symm.trans hroot)]

/-- One end, from the node that stands there in order. -/
theorem Represents.extremeEnd (order : TotalOrder cmp) (h : Represents cmp this mem t q)
    (hwf : Tally.Wf cmp (Tally.widen t.vals)) {le : D → D → Prop} {cached : Ptr} {get : Option (Option D)}
    {popData : Option (Bintree D × Mem D × Option D)} {popNode : Option (Bintree D × Mem D × Ptr)}
    {u : Option (Addr × Stored D)} (hcached : cached = u.map Prod.fst)
    (hmem : ∀ v ∈ u, v ∈ t.inorder) (hnone : u = none ↔ t.inorder = [])
    (hle : ∀ v ∈ u, ∀ w ∈ t.inorder, le w.2.data v.2.data)
    (hget : get = some ((u.map Prod.snd).map Entry.data))
    (hpopData : popData = deleteAt cmp this mem (u.map Prod.snd))
    (hpopNode : popNode = popAt cmp this mem (u.map Prod.snd)) :
    ExtremeEnd cmp le this mem cached get popData popNode := by
  have hnil : this.root = none ↔ u = none := by
    rw [h.root, Shape.ptr_eq_none_iff, hnone]
    exact ⟨fun he => by rw [he]; rfl, Shape.eq_nil_of_inorder⟩
  have hread : ∀ a n, cached = some a → mem.read a = some n →
      ∃ e, u = some (a, e) ∧ n.data = e.data := by
    intro a n ha hn
    cases u with
    | none => simp [hcached] at ha
    | some v =>
      obtain ⟨b, e⟩ := v
      obtain rfl : b = a := by simpa [hcached] using ha
      obtain ⟨l, r, hb⟩ := h.holds.read (hmem _ rfl)
      rw [hb] at hn
      cases hn
      exact ⟨e, rfl, rfl⟩
  constructor
  · rw [hnil, hcached]
    simp
  · intro a ha
    cases u with
    | none => simp [hcached] at ha
    | some v =>
      obtain ⟨b, e⟩ := v
      obtain rfl : b = a := by simpa [hcached] using ha
      have hb : b ∈ t.addrs := List.mem_map.mpr ⟨(b, e), hmem _ rfl, rfl⟩
      exact ⟨(h.reaches_iff b).mpr hb, h.holds.live b hb⟩
  · intro a n b n' ha hn hb hn'
    obtain ⟨e, rfl, hdata⟩ := hread a n ha hn
    obtain ⟨⟨b', e'⟩, hw, rfl⟩ := List.mem_map.mp ((h.reaches_iff b).mp hb)
    obtain ⟨l, r, hb'⟩ := h.holds.read hw
    rw [hb'] at hn'
    cases hn'
    rw [hdata]
    exact hle _ rfl _ hw
  · intro hc
    cases u with
    | none => exact ⟨hget, hpopData, hpopNode⟩
    | some v => simp [hcached] at hc
  · intro a n ha hn
    obtain ⟨e, rfl, hdata⟩ := hread a n ha hn
    rw [hget, hdata]
    rfl
  · intro a n m ha hn hm
    obtain ⟨e, rfl, hdata⟩ := hread a n ha hn
    obtain ⟨this', mem', t', q', hdel, hrep, -, hvals, -, -⟩ := h.deleteValue order e.data
    have hreads := hrep.readsAs
    rw [hvals, find_takeOne order hwf, ← h.readsAs_unique hm, ← hdata] at hreads
    exact ⟨this', mem', by simp [hpopData, deleteAt, hdel, hdata], hreads⟩
  · intro a n m ha hn hm
    obtain ⟨e, rfl, hdata⟩ := hread a n ha hn
    have he : e ∈ t.vals := List.mem_map.mpr ⟨(a, e), hmem _ rfl, rfl⟩
    obtain ⟨this', mem', t', p, hpop, hh, hvals, -⟩ := h.popNode order e.data
    rw [Tally.find_of_mem order h.sorted he] at hh
    have hreads := (hh.represents h).readsAs
    rw [hvals, find_drop order hwf, ← h.readsAs_unique hm, ← hdata] at hreads
    cases hh with
    | popped _ _ _ b _ hp => exact ⟨this', mem', b, by simp [hpopNode, popAt, hpop], hreads⟩

theorem Represents.extremesRight (order : TotalOrder cmp) (h : Represents cmp this mem t q)
    (hs : Sharp this t) (hwf : Tally.Wf cmp (Tally.widen t.vals)) : ExtremesRight cmp this mem where
  top := by
    refine h.extremeEnd (u := t.inorder.getLast?) order hwf ?_ (fun _ hv => List.mem_of_getLast? hv)
      List.getLast?_eq_none_iff ?_ ?_ ?_ ?_
    · rw [hs.top, Shape.addrs, List.getLast?_map]
    · exact fun v hv => h.increasing.le_last order hv
    · rw [h.getTopData, h.cachedEntry_top hs, Shape.vals, List.getLast?_map]
    · rw [h.popTopData, h.cachedEntry_top hs, Shape.vals, List.getLast?_map]
    · rw [h.popTopNode, h.cachedEntry_top hs, Shape.vals, List.getLast?_map]
  bottom := by
    refine h.extremeEnd (u := t.inorder.head?) order hwf ?_ (fun _ hv => List.mem_of_head? hv)
      List.head?_eq_none_iff ?_ ?_ ?_ ?_
    · rw [hs.bottom, Shape.addrs, List.head?_map]
    · exact fun v hv => h.increasing.head_le order hv
    · rw [h.getBottomData, h.cachedEntry_bottom hs, Shape.vals, List.head?_map]
    · rw [h.popBottomData, h.cachedEntry_bottom hs, Shape.vals, List.head?_map]
    · rw [h.popBottomNode, h.cachedEntry_bottom hs, Shape.vals, List.head?_map]

/-! ## Runs -/

/-- There is room for a node of the key: `node_counter` has a period of 2^32. -/
def RoomFor (cmp : D → D → Int) (this : Bintree D) (mem : Mem D) (data : D) : Prop :=
  (storedRef cmp this mem data).isSome ∨ (storedEntries this mem).length < 4294967296

/-- An insertion does not bring the node counter round to one. -/
def NodesFit (cmp : D → D → Int) : Bintree D × Mem D → Op D → Prop
  | (this, mem), .insertData data => RoomFor cmp this mem data
  | (this, mem), .insertNode _ e => RoomFor cmp this mem e.data
  | _, _ => True

/-- The invariant of runs within both words. -/
structure EndsOk (cmp : D → D → Int) (s : Bintree D × Mem D) (t : Shape (Stored D)) (q : List Addr) : Prop where
  represents : Represents cmp s.1 s.2 t q
  sharp : Sharp s.1 t
  wf : Tally.Wf cmp (Tally.widen t.vals)
  size_le : t.size ≤ 4294967296

theorem endsOk_make (cmp : D → D → Int) (mem : Mem D) : EndsOk cmp (makeBintree, mem) .nil [] where
  represents := represents_make mem
  sharp := sharp_make
  wf := ⟨increasing_nil, nofun⟩
  size_le := Nat.zero_le _

theorem length_takeAt_le (cmp : D → D → Int) (xs : List (Stored D)) (e : Option (Stored D)) :
    (takeAt cmp xs e).length ≤ xs.length := by
  cases e with
  | none => exact Nat.le_refl _
  | some e => exact Tally.length_adjust_le cmp e.data Tally.lessOne xs

theorem length_dropAt_le (cmp : D → D → Int) (xs : List (Stored D)) (e : Option (Stored D)) :
    (dropAt cmp xs e).length ≤ xs.length := by
  cases e with
  | none => exact Nat.le_refl _
  | some e => exact Tally.length_adjust_le cmp e.data (fun _ => none) xs

/-- Only an insertion of a new key makes the tree larger. -/
theorem tallyExec_length (order : TotalOrder cmp) {s : Bintree D × Mem D} (h : EndsOk cmp s t q) {op : Op D}
    (hfit : NodesFit cmp s op) (ends : Ends D) : (tallyExec cmp ends t.vals op).1.length ≤ 4294967296 := by
  obtain ⟨this, mem⟩ := s
  have hsize := h.size_le
  rw [← Shape.length_vals] at hsize
  have hadd : ∀ e : Stored D, RoomFor cmp this mem e.data →
      (Tally.add cmp e t.vals).length ≤ 4294967296 := by
    intro e hroom
    have hlen := Tally.length_add order h.represents.sorted e
    rw [RoomFor, h.represents.storedRef order, h.represents.storedEntries, Option.isSome_map] at hroom
    split at hlen
    · omega
    · rename_i hnone
      have hlt := hroom.resolve_left hnone
      omega
  have hadjust : ∀ d f, (Tally.adjust cmp d f t.vals).length ≤ 4294967296 := fun d f =>
    Nat.le_trans (Tally.length_adjust_le cmp d f t.vals) hsize
  cases op with
  | insertData data => exact hadd ⟨data, 1⟩ hfit
  | insertNode node e => exact hadd e hfit
  | deleteValue data => exact hadjust data _
  | popNode data => exact hadjust data _
  | popTopNode => exact Nat.le_trans (length_dropAt_le cmp t.vals ends.top) hsize
  | popBottomNode => exact Nat.le_trans (length_dropAt_le cmp t.vals ends.bottom) hsize
  | popTopData => exact Nat.le_trans (length_takeAt_le cmp t.vals ends.top) hsize
  | popBottomData => exact Nat.le_trans (length_takeAt_le cmp t.vals ends.bottom) hsize
  | hasValue data => exact hsize
  | getTopData => exact hsize
  | getBottomData => exact hsize

theorem exec_endsOk (order : TotalOrder cmp) {s : Bintree D × Mem D} {op : Op D} (h : EndsOk cmp s t q)
    (hop : Callable s op ∧ RefsFit cmp s op ∧ NodesFit cmp s op) :
    ∃ s' ret, exec cmp s op = some (s', ret) ∧ ∃ t q, EndsOk cmp s' t q := by
  obtain ⟨this, mem⟩ := s
  obtain ⟨this', mem', ret, t', q', hrun, hrep, hsharp, hvals, -, -⟩ := exec_spec order h.represents hop.1
  have hsize : t'.size ≤ 4294967296 := by
    rw [← Shape.length_vals, hvals]
    exact tallyExec_length order h hop.2.2 _
  refine ⟨(this', mem'), ret, hrun, t', q', hrep, hsharp h.sharp hsize, ?_, hsize⟩
  rw [hvals]
  exact tallyExec_wf order h.represents h.wf _ hop.2.1

/-- After every run from a made tree in which references and nodes fit, the caches are
the true extremes. -/
theorem extremes_right (order : TotalOrder cmp) (mem : Mem D) (ops : List (Op D))
    (hops : Guarded (exec cmp) (fun s op => Callable s op ∧ RefsFit cmp s op ∧ NodesFit cmp s op)
      (makeBintree, mem) ops) :
    ∃ this' mem' rets, run (exec cmp) (makeBintree, mem) ops = some ((this', mem'), rets) ∧
      ExtremesRight cmp this' mem' := by
  have hstep : ∀ (s : Bintree D × Mem D) (op : Op D), (∃ t q, EndsOk cmp s t q) →
      Callable s op ∧ RefsFit cmp s op ∧ NodesFit cmp s op →
      ∃ s' ret, exec cmp s op = some (s', ret) ∧ ∃ t q, EndsOk cmp s' t q := by
    intro s op hinv hop
    obtain ⟨t, q, h⟩ := hinv
    exact exec_endsOk order h hop
  obtain ⟨⟨this', mem'⟩, rets, hrun, t, q, h⟩ := run_total hstep ⟨.nil, [], endsOk_make cmp mem⟩ hops
  exact ⟨this', mem', rets, hrun, h.represents.extremesRight order h.sharp h.wf⟩

/-- A run that gives a node to the tree, takes it out at the top and deletes at
the bottom. -/
theorem extremes_right_run :
    ∃ this' mem' rets,
      run (exec bintreecmpInt32) (makeBintree, ⟨[some (nodeCell ⟨5, 3⟩ none none)]⟩)
        [.insertNode 0 ⟨5, 3⟩, .insertData 2, .insertData 7, .popTopNode, .popBottomData, .insertData 9] =
          some ((this', mem'), rets) ∧
      ExtremesRight bintreecmpInt32 this' mem' := by
  refine extremes_right bintreecmpInt32_order _ _ ?_
  refine (guarded_cons rfl).mpr ⟨⟨spare_make 0 rfl, by decide +kernel, Or.inr (by decide +kernel)⟩, ?_⟩
  refine (guarded_cons rfl).mpr ⟨⟨trivial, by decide +kernel, Or.inr (by decide +kernel)⟩, ?_⟩
  refine (guarded_cons rfl).mpr ⟨⟨trivial, by decide +kernel, Or.inr (by decide +kernel)⟩, ?_⟩
  refine (guarded_cons rfl).mpr ⟨⟨trivial, trivial, trivial⟩, (guarded_cons rfl).mpr ⟨⟨trivial, trivial, trivial⟩, ?_⟩⟩
  exact ⟨⟨trivial, by decide +kernel, Or.inr (by decide +kernel)⟩, fun _ _ _ => trivial⟩

/-- A node of the largest multiplicity and one more reference: `pop_top_data` finds a
negative word and takes the key away instead of one reference. -/
theorem pop_top_drops_key :
    ∃ s rets, run (exec bintreecmpInt32) (makeBintree, ⟨[some (nodeCell ⟨5, 2147483647⟩ none none)]⟩)
        [.insertNode 0 ⟨5, 2147483647⟩, .insertData 5] = some (s, rets) ∧
      Guarded (exec bintreecmpInt32) Callable
        (makeBintree, ⟨[some (nodeCell ⟨5, 2147483647⟩ none none)]⟩)
        [.insertNode 0 ⟨5, 2147483647⟩, .insertData 5] ∧
      ¬ ExtremesRight bintreecmpInt32 s.1 s.2 := by
  refine ⟨_, _, rfl, ⟨spare_make 0 rfl, fun _ _ _ => ⟨trivial, fun _ _ _ => trivial⟩⟩, ?_⟩
  intro hright
  obtain ⟨this', mem', hpop, t, hroot, -, -, -, hmap⟩ := hright.top.popData_takes 0 _
    (Tally.find bintreecmpInt32 [⟨5, -2147483648⟩]) rfl rfl
    ⟨.node 0 ⟨5, -2147483648⟩ .nil .nil, rfl, ⟨rfl, trivial, trivial⟩, by decide, by simp [Increasing], rfl⟩
  cases hpop
  obtain rfl : t = .nil := Shape.ptr_eq_none_iff.mp (hroot.symm.trans rfl)
  exact absurd (congrFun hmap 5) (by decide +kernel)

end Devclego.Tree
