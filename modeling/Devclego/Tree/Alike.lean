import Devclego.Tree.Calls

/-!
# Trees that differ only in the layout of the recycle puffer

A ring buffer that has been filled and drained stores its queue from another
start index than a fresh one. No function of the tree can tell: every call
returns the same result and leaves trees that again differ in the layout only.
-/
namespace Devclego.Tree

open Foundation Puffers

variable {D : Type}

/-- Equal records up to two puffers that store the same queue. -/
inductive Alike : Bintree D → Bintree D → Prop where
  | mk (root bottom top : Ptr) (r r' : Datapuffer Addr) (nodeCounter duplicateCounter : Int32)
      (duplicateNotifier : Option (List D)) (q : List Addr) (hr : r.Holds recycleSize q)
      (hr' : r'.Holds recycleSize q) :
      Alike ⟨root, bottom, top, r, nodeCounter, duplicateCounter, duplicateNotifier⟩
        ⟨root, bottom, top, r', nodeCounter, duplicateCounter, duplicateNotifier⟩

/-- Results over alike trees that agree in everything else. -/
def AlikeWith {α : Type} (x y : Bintree D × α) : Prop := Alike x.1 y.1 ∧ x.2 = y.2

variable {cmp : D → D → Int} {a b : Bintree D} {mem : Mem D}

theorem isempty_congr {r r' : Datapuffer Addr} {q : List Addr} (h : r.Holds recycleSize q)
    (h' : r'.Holds recycleSize q) : datapufferIsempty r = datapufferIsempty r' :=
  Bool.eq_iff_iff.mpr (h.isempty_iff.trans h'.isempty_iff.symm)

theorem isfull_congr {r r' : Datapuffer Addr} {q : List Addr} (h : r.Holds recycleSize q)
    (h' : r'.Holds recycleSize q) : datapufferIsfull r = datapufferIsfull r' :=
  Bool.eq_iff_iff.mpr (h.isfull_iff.trans h'.isfull_iff.symm)

/-! ## Nodes -/

theorem refreshTop_alike (h : Alike a b) (mem : Mem D) :
    Option.Rel Alike (refreshTop a mem) (refreshTop b mem) := by
  obtain ⟨root, bottom, top, r, r', n, d, w, q, hr, hr'⟩ := h
  exact rel_read fun _ => rel_read fun _ => .some (.mk _ _ _ _ _ _ _ _ q hr hr')

theorem refreshBottom_alike (h : Alike a b) (mem : Mem D) :
    Option.Rel Alike (refreshBottom a mem) (refreshBottom b mem) := by
  obtain ⟨root, bottom, top, r, r', n, d, w, q, hr, hr'⟩ := h
  exact rel_read fun _ => rel_read fun _ => .some (.mk _ _ _ _ _ _ _ _ q hr hr')

theorem refreshExtremes_alike (h : Alike a b) (node : Addr) :
    Option.Rel Alike (refreshExtremes a mem node) (refreshExtremes b mem node) := by
  have htop : Option.Rel Alike (refreshIfTop a mem node) (refreshIfTop b mem node) := by
    have ht := refreshTop_alike h mem
    obtain ⟨root, bottom, top, r, r', n, d, w, q, hr, hr'⟩ := h
    exact rel_ite (fun _ => ht) fun _ => .some (.mk _ _ _ _ _ _ _ _ q hr hr')
  refine rel_bind htop fun a' b' h' => ?_
  have hb := refreshBottom_alike h' mem
  obtain ⟨root, bottom, top, r, r', n, d, w, q, hr, hr'⟩ := h'
  exact rel_ite (fun _ => hb) fun _ => .some (.mk _ _ _ _ _ _ _ _ q hr hr')

theorem makeBintreenode_alike (h : Alike a b) (data : D) :
    Option.Rel AlikeWith (makeBintreenode a mem data) (makeBintreenode b mem data) := by
  obtain ⟨root, bottom, top, r, r', n, d, w, q, hr, hr'⟩ := h
  simp only [makeBintreenode, isempty_congr hr hr']
  refine rel_ite (fun _ => .some ⟨.mk _ _ _ _ _ _ _ _ q hr hr', rfl⟩) fun hne => ?_
  obtain ⟨x, q', rfl⟩ : ∃ x q', q = x :: q' := by
    cases q with
    | nil => exact absurd (hr'.isempty_iff.mpr rfl) hne
    | cons x q' => exact ⟨x, q', rfl⟩
  rw [hr.read_result, hr'.read_result]
  refine rel_read fun _ => rel_read fun _ => .some ⟨.mk _ _ _ _ _ _ _ _ q' hr.read hr'.read, rfl⟩

theorem trashBintreenode_alike (h : Alike a b) (node : Addr) :
    Option.Rel AlikeWith (trashBintreenode a mem node) (trashBintreenode b mem node) := by
  refine rel_bind (refreshExtremes_alike h node) fun a' b' h' => ?_
  obtain ⟨root, bottom, top, r, r', n, d, w, q, hr, hr'⟩ := h'
  simp only [isfull_congr hr hr']
  refine rel_ite (fun _ => rel_read fun _ => .some ⟨.mk _ _ _ _ _ _ _ _ q hr hr', rfl⟩) fun hnf => ?_
  have hlt : q.length < recycleSize := by
    have hne := mt hr'.isfull_iff.mpr hnf
    have hle := hr'.fits
    omega
  exact .some ⟨.mk _ _ _ _ _ _ _ _ (q ++ [node]) (hr.write hlt node) (hr'.write hlt node), rfl⟩

/-! ## Insertion -/

theorem insertIntoTree_alike (fuel : Nat) (h : Alike a b) (actual : Ptr) (insert : Addr) :
    Option.Rel AlikeWith (insertIntoTree cmp fuel a mem actual insert)
      (insertIntoTree cmp fuel b mem actual insert) := by
  induction fuel generalizing a b mem actual insert with
  | zero => exact .none
  | succ fuel ih =>
    cases actual with
    | none =>
      obtain ⟨root, bottom, top, r, r', n, d, w, q, hr, hr'⟩ := h
      exact .some ⟨.mk _ _ _ _ _ _ _ _ q hr hr', rfl⟩
    | some actual =>
      refine rel_read fun x => rel_read fun i => ?_
      refine rel_ite (fun _ => ?_) fun _ => rel_ite (fun _ => ?_) fun _ => ?_
      · obtain ⟨root, bottom, top, r, r', n, d, w, q, hr, hr'⟩ := h
        refine rel_read fun _ => rel_bind (trashBintreenode_alike (.mk _ _ _ _ _ _ _ _ q hr hr') _) ?_
        rintro ⟨a', m⟩ ⟨b', m'⟩ ⟨h', rfl⟩
        obtain ⟨root, bottom, top, r, r', n, d, w, q, hr, hr'⟩ := h'
        exact .some ⟨.mk _ _ _ _ _ _ _ _ q hr hr', rfl⟩
      · refine rel_bind (ih h _ _) ?_
        rintro ⟨a', m, p⟩ ⟨b', m', p'⟩ ⟨h', he⟩
        cases he
        exact rel_read fun _ => rel_read fun _ => .some ⟨h', rfl⟩
      · refine rel_bind (ih h _ _) ?_
        rintro ⟨a', m, p⟩ ⟨b', m', p'⟩ ⟨h', he⟩
        cases he
        exact rel_read fun _ => rel_read fun _ => .some ⟨h', rfl⟩

theorem insertExtremes_alike (h : Alike a b) (insert : Addr) :
    Option.Rel Alike (insertExtremes cmp a mem insert) (insertExtremes cmp b mem insert) := by
  obtain ⟨root, bottom, top, r, r', n, d, w, q, hr, hr'⟩ := h
  refine rel_ite (fun _ => .some (.mk _ _ _ _ _ _ _ _ q hr hr')) fun _ => ?_
  refine rel_read fun _ => rel_read fun _ =>
    rel_ite (fun _ => .some (.mk _ _ _ _ _ _ _ _ q hr hr')) fun _ => rel_read fun _ => ?_
  exact rel_ite (fun _ => .some (.mk _ _ _ _ _ _ _ _ q hr hr'))
    fun _ => .some (.mk _ _ _ _ _ _ _ _ q hr hr')

theorem insertRoot_alike (h : Alike a b) (insert : Addr) :
    Option.Rel AlikeWith (insertRoot cmp a mem insert) (insertRoot cmp b mem insert) := by
  have hroot : a.root = b.root := by cases h; rfl
  rw [insertRoot, insertRoot, hroot]
  refine rel_bind (insertIntoTree_alike _ h _ _) ?_
  rintro ⟨a', m, p⟩ ⟨b', m', p'⟩ ⟨h', he⟩
  cases he
  refine rel_bind (insertExtremes_alike h' _) fun a'' b'' h'' => ?_
  obtain ⟨root, bottom, top, r, r', n, d, w, q, hr, hr'⟩ := h''
  exact .some ⟨.mk _ _ _ _ _ _ _ _ q hr hr', rfl⟩

/-! ## Removal -/

theorem searchValue_alike (h : Alike a b) (data : D) :
    searchValue cmp a mem data = searchValue cmp b mem data := by
  cases h
  rfl

theorem unlinkNode_alike (h : Alike a b) (parent : Ptr) (node : Addr) (candidate : Ptr) :
    Option.Rel AlikeWith (unlinkNode a mem parent node candidate)
      (unlinkNode b mem parent node candidate) := by
  cases parent with
  | none =>
    obtain ⟨root, bottom, top, r, r', n, d, w, q, hr, hr'⟩ := h
    exact .some ⟨.mk _ _ _ _ _ _ _ _ q hr hr', rfl⟩
  | some parent =>
    exact rel_read fun _ => rel_ite (fun _ => rel_read fun _ => .some ⟨h, rfl⟩)
      fun _ => rel_read fun _ => .some ⟨h, rfl⟩

theorem popRemove_alike (h : Alike a b) (parent : Ptr) (node : Addr) (candidate : Ptr) :
    Option.Rel AlikeWith (popRemove a mem parent node candidate)
      (popRemove b mem parent node candidate) := by
  refine rel_bind (unlinkNode_alike h parent node candidate) ?_
  rintro ⟨a', m⟩ ⟨b', m'⟩ ⟨h', rfl⟩
  obtain ⟨root, bottom, top, r, r', n, d, w, q, hr, hr'⟩ := h'
  refine rel_read fun _ => rel_read fun _ =>
    rel_bind (refreshExtremes_alike (.mk _ _ _ _ _ _ _ _ q hr hr') node) fun a'' b'' h'' => ?_
  exact .some ⟨h'', rfl⟩

theorem popFromTree_alike (fuel : Nat) (h : Alike a b) (data : D) :
    Option.Rel AlikeWith (popFromTree cmp fuel a mem data) (popFromTree cmp fuel b mem data) := by
  induction fuel generalizing a b mem data with
  | zero => exact .none
  | succ fuel ih =>
    rw [popFromTree, popFromTree, searchValue_alike h]
    refine rel_read fun r => ?_
    obtain ⟨node, parent⟩ := r
    cases node with
    | none => exact .some ⟨h, rfl⟩
    | some node =>
      refine rel_read fun n => ?_
      obtain ⟨data', left, right, ref⟩ := n
      cases left with
      | none =>
        cases right with
        | none => exact popRemove_alike h parent node none
        | some right => exact popRemove_alike h parent node (some right)
      | some left =>
        cases right with
        | none => exact popRemove_alike h parent node (some left)
        | some right =>
          refine rel_read fun _ => rel_read fun _ => rel_bind (ih h _) ?_
          rintro ⟨a', m, p⟩ ⟨b', m', p'⟩ ⟨h', he⟩
          cases he
          refine rel_read fun _ => rel_read fun _ => rel_read fun _ => rel_read fun _ =>
            rel_read fun _ => rel_bind (refreshExtremes_alike h' _) fun a'' b'' h'' => ?_
          exact .some ⟨h'', rfl⟩

theorem derefRemove_alike (h : Alike a b) (parent : Ptr) (node : Addr) (candidate : Ptr) :
    Option.Rel AlikeWith (derefRemove a mem parent node candidate)
      (derefRemove b mem parent node candidate) := by
  refine rel_bind (unlinkNode_alike h parent node candidate) ?_
  rintro ⟨a', m⟩ ⟨b', m'⟩ ⟨h', rfl⟩
  refine rel_bind (trashBintreenode_alike h' node) ?_
  rintro ⟨a', m⟩ ⟨b', m'⟩ ⟨h', rfl⟩
  obtain ⟨root, bottom, top, r, r', n, d, w, q, hr, hr'⟩ := h'
  exact .some ⟨.mk _ _ _ _ _ _ _ _ q hr hr', rfl⟩

theorem derefFromTree_alike (h : Alike a b) (data : D) :
    Option.Rel AlikeWith (derefFromTree cmp a mem data) (derefFromTree cmp b mem data) := by
  rw [derefFromTree, derefFromTree, searchValue_alike h]
  refine rel_read fun r => ?_
  obtain ⟨node, parent⟩ := r
  cases node with
  | none => exact .some ⟨h, rfl⟩
  | some node =>
    refine rel_read fun n => rel_ite (fun _ => rel_read fun _ => ?_) fun _ => ?_
    · obtain ⟨root, bottom, top, r, r', n, d, w, q, hr, hr'⟩ := h
      exact .some ⟨.mk _ _ _ _ _ _ _ _ q hr hr', rfl⟩
    · obtain ⟨data', left, right, ref⟩ := n
      cases left with
      | none =>
        cases right with
        | none => exact derefRemove_alike h parent node none
        | some right => exact derefRemove_alike h parent node (some right)
      | some left =>
        cases right with
        | none => exact derefRemove_alike h parent node (some left)
        | some right =>
          refine rel_read fun _ => rel_read fun _ => rel_bind (popFromTree_alike _ h _) ?_
          rintro ⟨a', m, p⟩ ⟨b', m', p'⟩ ⟨h', he⟩
          cases he
          refine rel_read fun _ => rel_read fun _ => rel_read fun _ => rel_read fun _ => ?_
          exact trashBintreenode_alike h' _

/-! ## Reset -/

theorem ruinFull_alike (fuel : Nat) (h : Alike a b) (node : Ptr) :
    Option.Rel AlikeWith (ruinFull fuel a mem node) (ruinFull fuel b mem node) := by
  induction fuel generalizing a b mem node with
  | zero => exact .none
  | succ fuel ih =>
    cases node with
    | none => exact .some ⟨h, rfl⟩
    | some node =>
      refine rel_read fun _ => rel_bind (ih h _) ?_
      rintro ⟨a', m⟩ ⟨b', m'⟩ ⟨h', rfl⟩
      refine rel_read fun _ => rel_bind (ih h' _) ?_
      rintro ⟨a', m⟩ ⟨b', m'⟩ ⟨h', rfl⟩
      refine rel_bind (trashBintreenode_alike h' node) ?_
      rintro ⟨a', m⟩ ⟨b', m'⟩ ⟨h', rfl⟩
      obtain ⟨root, bottom, top, r, r', n, d, w, q, hr, hr'⟩ := h'
      exact .some ⟨.mk _ _ _ _ _ _ _ _ q hr hr', rfl⟩

theorem bintreeReset_alike (h : Alike a b) :
    Option.Rel AlikeWith (bintreeReset a mem) (bintreeReset b mem) := by
  have hroot : a.root = b.root := by cases h; rfl
  rw [bintreeReset, bintreeReset, hroot]
  refine rel_bind (ruinFull_alike _ h _) ?_
  rintro ⟨a', m⟩ ⟨b', m'⟩ ⟨h', rfl⟩
  obtain ⟨root, bottom, top, r, r', n, d, w, q, hr, hr'⟩ := h'
  simp only [hr.clear.2, hr'.clear.2]
  exact rel_read fun _ => .some ⟨.mk _ _ _ _ _ _ _ _ [] hr.clear.1 hr'.clear.1, rfl⟩

/-! ## Calls -/

theorem exec_alike (h : Alike a b) (o : Op D) :
    Option.Rel (fun x y => AlikeWith x.1 y.1 ∧ x.2 = y.2) (exec cmp (a, mem) o) (exec cmp (b, mem) o) := by
  have htop : a.top = b.top := by cases h; rfl
  have hbot : a.bottom = b.bottom := by cases h; rfl
  have hpop : ∀ x y : Bintree D × Mem D × Ptr, AlikeWith x y →
      AlikeWith (handOut x).1 (handOut y).1 ∧ (handOut x).2 = (handOut y).2 := by
    rintro ⟨a', m, p⟩ ⟨b', m', p'⟩ ⟨h', he⟩
    cases he
    exact ⟨⟨h', rfl⟩, rfl⟩
  have hunit : ∀ x y : Bintree D × Mem D, AlikeWith x y →
      AlikeWith x y ∧ (Ret.unit : Ret D) = Ret.unit := fun x y hxy => ⟨hxy, rfl⟩
  have hdata : ∀ x y : Bintree D × Mem D × Option D, AlikeWith x y →
      AlikeWith (x.1, x.2.1) (y.1, y.2.1) ∧ Ret.data x.2.2 = Ret.data y.2.2 := by
    rintro ⟨a', m, p⟩ ⟨b', m', p'⟩ ⟨h', he⟩
    cases he
    exact ⟨⟨h', rfl⟩, rfl⟩
  cases o with
  | insertData data =>
    refine rel_map (rel_bind (makeBintreenode_alike h data) ?_) hunit
    rintro ⟨a', m, p⟩ ⟨b', m', p'⟩ ⟨h', he⟩
    cases he
    exact insertRoot_alike h' _
  | insertNode node e => exact rel_map (insertRoot_alike h node) hunit
  | deleteValue data => exact rel_map (derefFromTree_alike h data) hunit
  | popNode data => exact rel_map (popFromTree_alike _ h data) hpop
  | popTopNode =>
    simp only [exec, bintreePopTopNode, htop]
    refine rel_map (R := AlikeWith) ?_ hpop
    cases b.top with
    | none => exact .some ⟨h, rfl⟩
    | some top => exact rel_read fun _ => popFromTree_alike _ h _
  | popBottomNode =>
    simp only [exec, bintreePopBottomNode, hbot]
    refine rel_map (R := AlikeWith) ?_ hpop
    cases b.bottom with
    | none => exact .some ⟨h, rfl⟩
    | some bottom => exact rel_read fun _ => popFromTree_alike _ h _
  | popTopData =>
    simp only [exec, bintreePopTopData, htop]
    refine rel_map (R := AlikeWith) ?_ hdata
    cases b.top with
    | none => exact .some ⟨h, rfl⟩
    | some top =>
      refine rel_read fun _ => rel_bind (derefFromTree_alike h _) ?_
      rintro ⟨a', m⟩ ⟨b', m'⟩ ⟨h', rfl⟩
      exact .some ⟨h', rfl⟩
  | popBottomData =>
    simp only [exec, bintreePopBottomData, hbot]
    refine rel_map (R := AlikeWith) ?_ hdata
    cases b.bottom with
    | none => exact .some ⟨h, rfl⟩
    | some bottom =>
      refine rel_read fun _ => rel_bind (derefFromTree_alike h _) ?_
      rintro ⟨a', m⟩ ⟨b', m'⟩ ⟨h', rfl⟩
      exact .some ⟨h', rfl⟩
  | hasValue data =>
    simp only [exec, bintreeHasValue, searchValue_alike h]
    cases searchValue cmp b mem data with
    | none => exact .none
    | some r => exact .some ⟨⟨h, rfl⟩, rfl⟩
  | getTopData =>
    simp only [exec, bintreeGetTopData, htop]
    cases b.top with
    | none => exact .some ⟨⟨h, rfl⟩, rfl⟩
    | some top =>
      simp only [Option.map_map]
      cases mem.read top with
      | none => exact .none
      | some n => exact .some ⟨⟨h, rfl⟩, rfl⟩
  | getBottomData =>
    simp only [exec, bintreeGetBottomData, hbot]
    cases b.bottom with
    | none => exact .some ⟨⟨h, rfl⟩, rfl⟩
    | some bottom =>
      simp only [Option.map_map]
      cases mem.read bottom with
      | none => exact .none
      | some n => exact .some ⟨⟨h, rfl⟩, rfl⟩

theorem execCall_alike (s s' : Bintree D × Mem D) (c : Call D) (h : AlikeWith s s') :
    Option.Rel (fun x y => AlikeWith x.1 y.1 ∧ x.2 = y.2) (execCall cmp s c) (execCall cmp s' c) := by
  obtain ⟨a, mem⟩ := s
  obtain ⟨b, mem'⟩ := s'
  obtain ⟨h, rfl⟩ : Alike a b ∧ mem = mem' := h
  cases c with
  | op o => exact exec_alike h o
  | getNodenum =>
    have he : bintreeGetNodenum a = bintreeGetNodenum b := by cases h; rfl
    exact .some ⟨⟨h, rfl⟩, congrArg Ret.count he⟩
  | getRefnum =>
    have he : bintreeGetRefnum a = bintreeGetRefnum b := by cases h; rfl
    exact .some ⟨⟨h, rfl⟩, congrArg Ret.count he⟩
  | makeNode data =>
    refine rel_map (makeBintreenode_alike h data) ?_
    rintro ⟨a', m, p⟩ ⟨b', m', p'⟩ ⟨h', he⟩
    cases he
    exact ⟨⟨h', rfl⟩, rfl⟩
  | trashNode node => exact rel_map (trashBintreenode_alike h node) fun x y hxy => ⟨hxy, rfl⟩
  | reset => exact rel_map (bintreeReset_alike h) fun x y hxy => ⟨hxy, rfl⟩

/-- No sequence of calls tells alike trees apart. -/
theorem outputs_alike (h : Alike a b) (calls : List (Call D)) :
    (run (execCall cmp) (a, mem) calls).map Prod.snd =
      (run (execCall cmp) (b, mem) calls).map Prod.snd := by
  have hs : AlikeWith (a, mem) (b, mem) := ⟨h, rfl⟩
  exact run_bisim execCall_alike hs calls

end Devclego.Tree
