import Devclego.Lists.Doubly

/-!
# Copies of an `slist_t`

`slist_cpy` appends the data of the source one by one to `head`, a variable that it
never initialises. From a null `head` the first append makes a list of its own;
from any other value the appends go to whatever list is found there, if any.
-/
namespace Devclego.Lists

open Foundation

def slistCell (data next _prev : Ptr) : Slist := ⟨data, next⟩

theorem slistCell_inj (u v n n' p p' : Ptr) (h : slistCell u n p = slistCell v n' p') : u = v ∧ n = n' := by
  cases h
  exact ⟨rfl, rfl⟩

/-- A null-terminated list in memory, with its data. -/
def IsSlist (mem : Memory Slist) (slist : Ptr) (nodes : List (Addr × Ptr)) : Prop :=
  slist = headPtr nodes none ∧ Linked slistCell mem none nodes none

/-- A list of new nodes with the data of the source, which nothing happened to. -/
structure IsCopy (mem : Memory Slist) (nodes : List (Addr × Ptr)) (mem' : Memory Slist) (result : Ptr)
    (copies : List (Addr × Ptr)) : Prop where
  list : IsSlist mem' result copies
  distinct : (copies.map Prod.fst).Nodup
  data : copies.map Prod.snd = nodes.map Prod.snd
  made : ∀ a ∈ copies.map Prod.fst, mem.size ≤ a
  apart : (copies.map Prod.fst).Disjoint (nodes.map Prod.fst)
  source : IsSlist mem' (headPtr nodes none) nodes
  kept : ∀ a, a < mem.size → mem'.read a = mem.read a

variable {mem mem' : Memory Slist} {nodes copies rest : List (Addr × Ptr)} {head result : Ptr} {size fuel : Nat}

theorem IsSlist.distinct (h : IsSlist mem head nodes) : (nodes.map Prod.fst).Nodup :=
  h.2.distinct slistCell_inj fun _ _ _ _ => rfl

theorem IsSlist.lt_size (h : IsSlist mem head nodes) : ∀ a ∈ nodes.map Prod.fst, a < mem.size := by
  intro a ha
  obtain ⟨n, hn⟩ := Option.isSome_iff_exists.mp (h.2.live a ha)
  exact Memory.lt_size_of_read hn

theorem IsSlist.length_le (h : IsSlist mem head nodes) : nodes.length ≤ mem.size := by
  have hle := Memory.length_le_size h.distinct h.2.live
  rwa [List.length_map] at hle

/-! ## From a null head -/

/-- A list of cells from `size` on. -/
structure MadeFrom (size : Nat) (mem : Memory Slist) (head : Ptr) (copies : List (Addr × Ptr)) : Prop where
  list : IsSlist mem head copies
  made : ∀ a ∈ copies.map Prod.fst, size ≤ a
  size_le : size ≤ mem.size

theorem slistAppend_spec (h : MadeFrom size mem head copies) (item : Ptr) :
    ∃ mem' head', slistAppend mem head item = some (mem', head') ∧
      MadeFrom size mem' head' (copies ++ [(mem.size, item)]) ∧ ∀ a, a < size → mem'.read a = mem.read a := by
  obtain ⟨⟨rfl, hlinked⟩, hmade, hsize⟩ := h
  have hfresh := hlinked.size_not_mem
  have hnew : ∀ a, a < size → (makeSlist mem item).1.read a = mem.read a :=
    fun a ha => mem.read_alloc_ne _ (Nat.ne_of_lt (ha.trans_le hsize))
  have hmade' : ∀ a ∈ (copies ++ [(mem.size, item)]).map Prod.fst, size ≤ a := by
    intro a ha
    rw [List.map_append, List.mem_append] at ha
    rcases ha with ha | ha
    · exact hmade a ha
    · rw [List.mem_singleton.mp ha]
      exact hsize
  have hread : (makeSlist mem item).1.read mem.size = some (slistCell item none none) := mem.read_alloc_self _
  rcases List.eq_nil_or_concat' copies with rfl | ⟨ys, y, rfl⟩
  · refine ⟨(makeSlist mem item).1, some mem.size, rfl, ⟨⟨rfl, hread, trivial⟩, hmade', ?_⟩, hnew⟩
    exact hsize.trans (by rw [makeSlist, Memory.size_alloc]; exact Nat.le_succ _)
  · obtain ⟨b, hb⟩ := headPtr_concat ys y none
    have hlength := (show IsSlist mem _ (ys ++ [y]) from ⟨rfl, hlinked⟩).length_le
    rw [List.length_append, List.length_singleton] at hlength
    have hdistinct := (show IsSlist mem _ (ys ++ [y]) from ⟨rfl, hlinked⟩).distinct
    have htail : findTail Slist.next mem (mem.size + 1) b = some y.1 :=
      findTail_spec (fun _ _ _ => rfl) hlinked hb (by omega)
    have hmake : Linked slistCell (makeSlist mem item).1 none (ys ++ [y]) none :=
      hlinked.congr fun _ ha => mem.read_alloc_ne _ (ne_of_mem_of_not_mem ha hfresh)
    have hy := (linked_concat.mp hmake).2
    have hy_ne : mem.size ≠ y.1 := (ne_of_mem_of_not_mem (by simp) hfresh).symm
    have hlinked' := hmake.relink_last (nodup_concat hdistinct).2 (some mem.size)
    refine ⟨(makeSlist mem item).1.set y.1 (some (slistCell y.2 (some mem.size) none)), some b, ?_,
      ⟨⟨?_, linked_concat.mpr ⟨hlinked', ?_⟩⟩, hmade', ?_⟩, fun a ha => ?_⟩
    · rw [hb]
      simp only [slistAppend, htail, hy, Memory.write_live hy, Option.bind_eq_bind, Option.bind_some]
      rfl
    · rw [headPtr_append, ← hb, headPtr_append, headPtr_append]
      rfl
    · rw [lastPtr_concat]
      exact (Memory.read_set_ne _ hy_ne _).trans hread
    · rw [Memory.size_set, makeSlist, Memory.size_alloc]
      exact Nat.le_succ_of_le hsize
    · have hya : a ≠ y.1 := fun he => Nat.not_lt.mpr (hmade y.1 (by simp)) (he ▸ ha)
      exact (Memory.read_set_ne _ hya _).trans (hnew a ha)

/-- The loop appends the data that are left, and touches no cell below `size`. -/
theorem cpyLoop_spec {x : Addr × Ptr} (hsource : Linked slistCell mem none (x :: rest) none)
    (hbelow : ∀ a ∈ (x :: rest).map Prod.fst, a < size) (h : MadeFrom size mem head copies)
    (hfuel : rest.length < fuel) :
    ∃ mem' head' copies', cpyLoop fuel mem head x.1 = some (mem', head') ∧ MadeFrom size mem' head' copies' ∧
      copies'.map Prod.snd = copies.map Prod.snd ++ (x :: rest).map Prod.snd ∧
      ∀ a, a < size → mem'.read a = mem.read a := by
  induction rest generalizing x mem head copies fuel with
  | nil =>
    obtain ⟨fuel, rfl⟩ := Nat.exists_eq_succ_of_ne_zero (Nat.ne_of_gt hfuel)
    obtain ⟨mem', head', happend, hmade, hkept⟩ := slistAppend_spec h x.2
    have hread : mem.read x.1 = some ⟨x.2, none⟩ := hsource.1
    have hread' : mem'.read x.1 = some ⟨x.2, none⟩ := (hkept x.1 (hbelow x.1 (by simp))).trans hread
    refine ⟨mem', head', _, ?_, hmade, by simp, hkept⟩
    simp only [cpyLoop, hread, happend, hread', Option.bind_eq_bind, Option.bind_some]
  | cons y rest ih =>
    obtain ⟨fuel, rfl⟩ := Nat.exists_eq_succ_of_ne_zero (Nat.ne_of_gt (Nat.zero_lt_of_lt hfuel))
    obtain ⟨mem₁, head₁, happend, hmade, hkept⟩ := slistAppend_spec h x.2
    have hread : mem.read x.1 = some ⟨x.2, some y.1⟩ := hsource.1
    have hread' : mem₁.read x.1 = some ⟨x.2, some y.1⟩ := (hkept x.1 (hbelow x.1 (by simp))).trans hread
    have hrest : Linked slistCell mem₁ none (y :: rest) none :=
      (hsource.2.forward (fun _ _ _ _ => rfl) none).congr fun a ha => hkept a (hbelow a (List.mem_cons_of_mem _ ha))
    obtain ⟨mem', head', copies', hloop, hmade', hdata, hkept'⟩ :=
      ih hrest (fun a ha => hbelow a (List.mem_cons_of_mem _ ha)) hmade (Nat.lt_of_succ_lt_succ hfuel)
    refine ⟨mem', head', copies', ?_, hmade', ?_, fun a ha => (hkept' a ha).trans (hkept a ha)⟩
    · simp only [cpyLoop, hread, happend, hread', Option.bind_eq_bind, Option.bind_some, hloop]
    · rw [hdata]
      simp

theorem MadeFrom.isCopy (hsource : IsSlist mem (headPtr nodes none) nodes) (h : MadeFrom mem.size mem' result copies)
    (hdata : copies.map Prod.snd = nodes.map Prod.snd) (hkept : ∀ a, a < mem.size → mem'.read a = mem.read a) :
    IsCopy mem nodes mem' result copies where
  list := h.list
  distinct := h.list.distinct
  data := hdata
  made := h.made
  apart a ha hb := Nat.not_lt.mpr (h.made a ha) (hsource.lt_size a hb)
  source := ⟨rfl, hsource.2.congr fun a ha => hkept a (hsource.lt_size a ha)⟩
  kept := hkept

theorem slistCpy_null (hsource : IsSlist mem (headPtr nodes none) nodes) :
    ∃ mem' result copies, slistCpy mem (headPtr nodes none) none = some (mem', result) ∧
      IsCopy mem nodes mem' result copies := by
  have hstart : MadeFrom mem.size mem none [] := ⟨⟨rfl, trivial⟩, by simp, Nat.le_refl _⟩
  cases nodes with
  | nil => exact ⟨mem, none, [], rfl, hstart.isCopy hsource rfl fun _ _ => rfl⟩
  | cons x rest =>
    have hlength := hsource.length_le
    rw [List.length_cons] at hlength
    obtain ⟨mem', result, copies, hrun, hmade, hdata, hkept⟩ :=
      cpyLoop_spec hsource.2 hsource.lt_size hstart (show rest.length < mem.size + 1 by omega)
    exact ⟨mem', result, copies, hrun, hmade.isCopy hsource hdata hkept⟩

/-! ## From any other head -/

/-- An append to a list gives that list back, and reads its first node. -/
theorem slistAppend_some {h : Addr} {item : Ptr} (hrun : slistAppend mem (some h) item = some (mem', result)) :
    result = some h ∧ (mem.read h).isSome := by
  simp only [slistAppend, Option.bind_eq_bind, Option.bind_eq_some_iff, Option.some.injEq, Prod.mk.injEq] at hrun
  obtain ⟨tail, htail, t, -, mem₁, -, -, rfl⟩ := hrun
  refine ⟨rfl, ?_⟩
  rw [findTail] at htail
  obtain ⟨n, hn, -⟩ := Option.bind_eq_some_iff.mp htail
  rw [hn]
  rfl

theorem cpyLoop_some {h actual : Addr} (hrun : cpyLoop fuel mem (some h) actual = some (mem', result)) :
    result = some h ∧ (mem.read h).isSome := by
  induction fuel generalizing mem actual with
  | zero => cases hrun
  | succ fuel ih =>
    simp only [cpyLoop, Option.bind_eq_bind, Option.bind_eq_some_iff] at hrun
    obtain ⟨a, -, ⟨mem₁, head₁⟩, happend, a', -, hnext⟩ := hrun
    obtain ⟨rfl, hlive⟩ := slistAppend_some happend
    cases hdone : a'.next with
    | none =>
      rw [hdone] at hnext
      cases hnext
      exact ⟨rfl, hlive⟩
    | some actual' =>
      rw [hdone] at hnext
      exact ⟨(ih hnext).1, hlive⟩

/-- What comes back is the list that `head` led to, which is not new. -/
theorem slistCpy_some {h : Addr} {x : Addr × Ptr} (hrun : slistCpy mem (some x.1) (some h) = some (mem', result))
    (hcopy : IsCopy mem (x :: rest) mem' result copies) : False := by
  obtain ⟨rfl, hlive⟩ := cpyLoop_some hrun
  obtain ⟨n, hn⟩ := Option.isSome_iff_exists.mp hlive
  cases copies with
  | nil => exact absurd hcopy.list.1 (Option.some_ne_none h)
  | cons y copies =>
    have hhead : h = y.1 := Option.some.inj hcopy.list.1
    exact Nat.not_lt.mpr (hcopy.made y.1 (by simp)) (hhead ▸ Memory.lt_size_of_read hn)

/-- Whatever the uninitialised `head` holds, the copy of a null-terminated list is right
just when there is nothing to copy or `head` happens to be null. -/
theorem slist_cpy_copies_iff (mem : Memory Slist) (nodes : List (Addr × Ptr))
    (hsource : IsSlist mem (headPtr nodes none) nodes) (head : Ptr) :
    (∃ mem' result copies, slistCpy mem (headPtr nodes none) head = some (mem', result) ∧
      IsCopy mem nodes mem' result copies) ↔ nodes = [] ∨ head = none := by
  constructor
  · rintro ⟨mem', result, copies, hrun, hcopy⟩
    cases nodes with
    | nil => exact Or.inl rfl
    | cons x rest =>
      cases head with
      | none => exact Or.inr rfl
      | some h => exact (slistCpy_some hrun hcopy).elim
  · rintro (rfl | rfl)
    · obtain ⟨mem', result, copies, hrun, hcopy⟩ := slistCpy_null hsource
      exact ⟨mem', result, copies, hrun, hcopy⟩
    · exact slistCpy_null hsource

/-- Two nodes copied from a null `head`. -/
theorem slist_cpy_copies_iff_two :
    (∃ mem' result copies, slistCpy ⟨[some ⟨some 7, some 1⟩, some ⟨none, none⟩]⟩
        (headPtr [(0, some 7), (1, none)] none) none = some (mem', result) ∧
      IsCopy ⟨[some ⟨some 7, some 1⟩, some ⟨none, none⟩]⟩ [(0, some 7), (1, none)] mem' result copies) ↔
      [((0 : Addr), some (7 : Addr)), (1, none)] = [] ∨ (none : Ptr) = none :=
  slist_cpy_copies_iff _ [(0, some 7), (1, none)] ⟨rfl, rfl, rfl, trivial⟩ none

/-- With the address of another list in `head`, the datum goes to the end of that list, and
that list is returned. -/
theorem slist_cpy_returns_other_list :
    IsSlist ⟨[some ⟨some 7, none⟩, some ⟨some 9, none⟩]⟩ (headPtr [(0, some 7)] none) [(0, some 7)] ∧
    slistCpy ⟨[some ⟨some 7, none⟩, some ⟨some 9, none⟩]⟩ (headPtr [((0 : Addr), some (7 : Addr))] none) (some 1) =
      some (⟨[some ⟨some 7, none⟩, some ⟨some 9, some 2⟩, some ⟨some 7, none⟩]⟩, some 1) ∧
    ¬ ∃ mem' result copies, slistCpy ⟨[some ⟨some 7, none⟩, some ⟨some 9, none⟩]⟩
        (headPtr [((0 : Addr), some (7 : Addr))] none) (some 1) = some (mem', result) ∧
      IsCopy ⟨[some ⟨some 7, none⟩, some ⟨some 9, none⟩]⟩ [(0, some 7)] mem' result copies := by
  refine ⟨⟨rfl, rfl, trivial⟩, by decide, ?_⟩
  intro hcopied
  obtain ⟨mem', result, copies, hrun, hcopy⟩ := hcopied
  exact slistCpy_some hrun hcopy

end Devclego.Lists
