import Mathlib.Data.List.Find
import Devclego.Foundation.Tally

/-!
# Tallies of a queue

A tally to which elements are added at one end of a queue and from which they are
taken at the other holds, for each key, the newest element of the queue with this key
and their number. So a datum of the tally is never an element that has left.
-/
namespace Devclego.Foundation

variable {D : Type}

/-- The newest element with a key and the number of elements with it. -/
def newest (cmp : D → D → Int) (live : List D) (k : D) : Option (Entry D) :=
  let same := live.filter fun d => decide (cmp k d = 0)
  same.getLast?.map fun d => ⟨d, same.length⟩

/-- The tally is that of the queue. -/
def Summarises (cmp : D → D → Int) (xs : List (Entry D)) (live : List D) : Prop :=
  ∀ k, Tally.find cmp xs k = newest cmp live k

variable {cmp cmp' : D → D → Int} {xs : List (Entry D)} {live : List D} {d k : D}

theorem summarises_nil : Summarises cmp ([] : List (Entry D)) [] := fun _ => rfl

theorem newest_mem {e : Entry D} (h : newest cmp live k = some e) : e.data ∈ live ∧ cmp k e.data = 0 := by
  obtain ⟨u, hu, rfl⟩ := Option.map_eq_some_iff.mp h
  have hmem := List.mem_filter.mp (List.mem_of_getLast? hu)
  exact ⟨hmem.1, of_decide_eq_true hmem.2⟩

theorem newest_isSome (hd : d ∈ live) (hk : cmp k d = 0) : ∃ e, newest cmp live k = some e := by
  have hne : (live.filter fun d => decide (cmp k d = 0)) ≠ [] :=
    List.ne_nil_of_mem (List.mem_filter.mpr ⟨hd, decide_eq_true hk⟩)
  obtain ⟨u, hu⟩ := Option.isSome_iff_exists.mp (List.getLast?_isSome.mpr hne)
  exact ⟨_, by rw [newest, hu, Option.map_some]⟩

theorem newest_append (cmp : D → D → Int) (live : List D) (d k : D) :
    newest cmp (live ++ [d]) k =
      if cmp k d = 0 then some ⟨d, ((newest cmp live k).map Entry.ref).getD 0 + 1⟩ else newest cmp live k := by
  by_cases hk : cmp k d = 0
  · have hcount : ((newest cmp live k).map Entry.ref).getD 0 =
        ((live.filter fun d => decide (cmp k d = 0)).length : Int) := by
      unfold newest
      cases hsame : live.filter fun d => decide (cmp k d = 0) with
      | nil => rfl
      | cons u us => simp [List.getLast?_cons]
    rw [if_pos hk, hcount]
    simp [newest, List.filter_append, hk]
  · simp [newest, List.filter_append, hk]

theorem newest_cons (cmp : D → D → Int) (live : List D) (d k : D) :
    newest cmp live k =
      if cmp k d = 0 then (newest cmp (d :: live) k).bind Tally.lessOne else newest cmp (d :: live) k := by
  by_cases hk : cmp k d = 0
  · rw [if_pos hk]
    have hfilter : (d :: live).filter (fun d => decide (cmp k d = 0)) =
        d :: live.filter fun d => decide (cmp k d = 0) := List.filter_cons_of_pos (by simpa using hk)
    rw [newest, newest, hfilter]
    -- the oldest is the last one left, or there is a newer one
    cases live.filter fun d => decide (cmp k d = 0) with
    | nil => rfl
    | cons u us =>
      have hmore : (1 : Int) < (d :: u :: us).length := by
        simp only [List.length_cons]
        omega
      rw [List.getLast?_cons_cons]
      cases (u :: us).getLast? with
      | none => rfl
      | some v =>
        rw [Option.map_some, Option.map_some, Option.bind_some, Tally.lessOne, if_pos hmore]
        simp
  · rw [if_neg hk]
    unfold newest
    rw [List.filter_cons_of_neg (by simpa using hk)]

/-- An element that comes is added, and becomes the datum of its key. -/
theorem Summarises.add (order : TotalOrder cmp) (hwf : Tally.Wf cmp xs) (h : Summarises cmp xs live) (d : D) :
    Summarises cmp (Tally.add cmp ⟨d, 1⟩ xs) (live ++ [d]) := by
  intro k
  rw [Tally.find_add order hwf, newest_append, Tally.mult, h k]

/-- When the oldest element goes, taking one off its key is right. -/
theorem Summarises.takeOne (order : TotalOrder cmp) (hwf : Tally.Wf cmp xs) (h : Summarises cmp xs (d :: live)) :
    Summarises cmp (Tally.takeOne cmp d xs) live := by
  intro k
  rw [Tally.takeOne, Tally.find_adjust order hwf Tally.proper_lessOne, h k, newest_cons cmp live d k]

theorem Summarises.data_live (order : TotalOrder cmp) (hwf : Tally.Wf cmp xs) (h : Summarises cmp xs live)
    {e : Entry D} (he : e ∈ xs) : e.data ∈ live :=
  (newest_mem ((h e.data).symm.trans (Tally.find_of_mem order hwf.increasing he))).1

theorem Summarises.covered (order : TotalOrder cmp) (h : Summarises cmp xs live) (hd : d ∈ live) :
    ∃ e ∈ xs, cmp d e.data = 0 := by
  obtain ⟨e, he⟩ := newest_isSome hd (order.refl d)
  have hfind := (h d).trans he
  exact ⟨e, List.mem_of_find?_eq_some hfind, (newest_mem he).2⟩

/-- Only the comparisons among the elements of the queue matter. -/
theorem Summarises.congr (order : TotalOrder cmp) (order' : TotalOrder cmp') (hwf : Tally.Wf cmp xs)
    (h : Summarises cmp xs live) (hagree : ∀ a ∈ live, ∀ b ∈ live, cmp' a b = cmp a b) :
    Tally.Wf cmp' xs ∧ Summarises cmp' xs live := by
  have hdata : ∀ e ∈ xs, e.data ∈ live := fun e he => h.data_live order hwf he
  have hwf' : Tally.Wf cmp' xs := by
    refine ⟨hwf.increasing.imp_of_mem fun {a b} ha hb hlt => ?_, hwf.positive⟩
    rw [hagree _ (hdata a ha) _ (hdata b hb)]
    exact hlt
  have hfind : ∀ k ∈ live, Tally.find cmp' xs k = newest cmp' live k := by
    intro k hk
    have hsame : newest cmp' live k = newest cmp live k := by
      unfold newest
      rw [List.filter_congr fun d hd => by rw [hagree k hk d hd]]
    have hlookup : Tally.find cmp' xs k = Tally.find cmp xs k := by
      refine List.find?_congr fun e he => ?_
      rw [hagree k hk _ (hdata e he)]
    rw [hsame, hlookup, h k]
  refine ⟨hwf', fun k => ?_⟩
  -- a key that no element has is in neither
  by_cases hk : ∃ d ∈ live, cmp' k d = 0
  · obtain ⟨d, hd, hkd⟩ := hk
    have hsame : newest cmp' live k = newest cmp' live d := by
      unfold newest
      rw [List.filter_congr fun u _ => decide_eq_decide.mpr (order'.congr_left hkd u).2]
    rw [Tally.find_congr order' hkd, hsame, hfind d hd]
  · have hnone : newest cmp' live k = none := by
      rw [Option.eq_none_iff_forall_ne_some]
      intro e he
      exact hk ⟨e.data, newest_mem he⟩
    rw [hnone, Tally.find_eq_none_iff]
    exact fun e he hke => hk ⟨e.data, hdata e he, hke⟩

end Devclego.Foundation
