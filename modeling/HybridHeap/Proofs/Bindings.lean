import Mathlib.Data.List.Dedup
import HybridHeap.Proofs.Contents

/-!
Names that are bound one after the other. A name that comes several times has what it was bound
to last; what it was bound to before is superseded.
-/

namespace HybridHeap

variable {β : Type} {l : List (String × β)} {name : String} {b : β} {k : Nat}

/-- For every name the last of its bindings. -/
def lastOf : List (String × β) → Std.ExtTreeMap String β
  | [] => ∅
  | (name, b) :: l => if name ∈ l.map Prod.fst then lastOf l else (lastOf l).insert name b

/-- The values of the bindings whose names come again, among them or later. -/
def superseded (later : List String) : List (String × β) → List β
  | [] => []
  | (name, b) :: l =>
    if name ∈ l.map Prod.fst ++ later then b :: superseded later l else superseded later l

theorem superseded_append (l l' : List (String × β)) (later : List String) :
    superseded later (l ++ l') =
      superseded (l'.map Prod.fst ++ later) l ++ superseded later l' := by
  induction l with
  | nil => rfl
  | cons p l ih =>
      obtain ⟨name, b⟩ := p
      simp only [List.cons_append, superseded, List.map_append, List.append_assoc, ih]
      split <;> rfl

theorem superseded_sublist (later : List String) (l : List (String × β)) :
    (superseded later l).Sublist (l.map Prod.snd) := by
  induction l with
  | nil => exact .slnil
  | cons p l ih =>
      obtain ⟨name, b⟩ := p
      rw [superseded, List.map_cons]
      split
      · exact ih.cons_cons b
      · exact ih.cons b

theorem getElem?_lastOf_eq_none : (lastOf l)[name]? = none ↔ name ∉ l.map Prod.fst := by
  induction l with
  | nil => simp [lastOf]
  | cons p l ih =>
      obtain ⟨name', b⟩ := p
      rw [lastOf, List.map_cons, List.mem_cons, not_or]
      split
      · rename_i hm
        rw [ih, iff_and_self]
        rintro hn rfl
        exact hn hm
      · rw [Std.ExtTreeMap.getElem?_insert]
        split
        · rename_i he
          simp [Std.compare_eq_iff_eq.mp he]
        · rename_i he
          rw [ih, iff_and_self]
          rintro - rfl
          exact he (Std.compare_eq_iff_eq.mpr rfl)

/-- A name has what it is bound to at the last position at which it comes. -/
theorem getElem?_lastOf (hk : l[k]? = some (name, b))
    (hlast : ∀ j > k, (l.map Prod.fst)[j]? ≠ some name) : (lastOf l)[name]? = some b := by
  induction l generalizing k with
  | nil => cases hk
  | cons p l ih =>
      obtain ⟨name', b'⟩ := p
      cases k with
      | zero =>
          cases hk
          have hm : name ∉ l.map Prod.fst := by
            intro hm
            obtain ⟨j, hj⟩ := List.mem_iff_getElem?.mp hm
            exact hlast (j + 1) (Nat.succ_pos j) hj
          rw [lastOf, if_neg hm, Std.ExtTreeMap.getElem?_insert_self]
      | succ k =>
          rw [List.getElem?_cons_succ] at hk
          have hl := ih hk fun j hj => hlast (j + 1) (Nat.succ_lt_succ hj)
          rw [lastOf]
          split
          · exact hl
          · rename_i hm
            rw [Std.ExtTreeMap.getElem?_insert, if_neg, hl]
            intro he
            rw [Std.compare_eq_iff_eq.mp he] at hm
            exact hm (List.mem_map_of_mem (List.mem_of_getElem? hk))

/-- There are as many names as there are different ones. -/
theorem size_lastOf (l : List (String × β)) :
    (lastOf l).size = (l.map Prod.fst).dedup.length := by
  induction l with
  | nil => rfl
  | cons p l ih =>
      obtain ⟨name, b⟩ := p
      rw [lastOf, List.map_cons]
      split
      · rename_i hm
        rw [ih, List.dedup_cons_of_mem hm]
      · rename_i hm
        have hnew : ¬(lastOf l).contains name = true := by
          rw [Std.ExtTreeMap.contains_eq_isSome_getElem?, getElem?_lastOf_eq_none.mpr hm]
          exact Bool.false_ne_true
        rw [List.dedup_cons_of_notMem hm, List.length_cons, ← ih, Std.ExtTreeMap.size_insert,
          if_neg hnew]

/-- Every value is superseded or stays. -/
theorem perm_lastOf (l : List (String × β)) :
    (l.map Prod.snd).Perm (superseded [] l ++ (lastOf l).values) := by
  induction l with
  | nil => exact .of_eq rfl
  | cons p l ih =>
      obtain ⟨name, b⟩ := p
      rw [lastOf, superseded, List.map_cons, List.append_nil]
      split
      · exact ih.cons b
      · rename_i hm
        refine (ih.cons b).trans (List.perm_middle.symm.trans (.append_left _ ?_))
        have hp := values_insert_perm (lastOf l) name b
        rw [erase_eq_self (getElem?_lastOf_eq_none.mpr hm)] at hp
        exact hp.symm

theorem getElem?_foldl_insert (l : List (String × β)) (t : Std.ExtTreeMap String β)
    (name : String) : (l.foldl (fun t p => t.insert p.1 p.2) t)[name]? =
      ((lastOf l)[name]?).or t[name]? := by
  induction l generalizing t with
  | nil => simp [lastOf]
  | cons p l ih =>
      obtain ⟨name', b⟩ := p
      rw [List.foldl_cons, ih, lastOf]
      by_cases he : name' = name
      · subst he
        split
        · rename_i hm
          have hsome : (lastOf l)[name']? ≠ none := fun hn => getElem?_lastOf_eq_none.mp hn hm
          obtain ⟨c, hc⟩ := Option.ne_none_iff_exists'.mp hsome
          rw [hc, Option.some_or, Option.some_or]
        · rename_i hm
          rw [getElem?_lastOf_eq_none.mpr hm, Std.ExtTreeMap.getElem?_insert_self,
            Std.ExtTreeMap.getElem?_insert_self, Option.none_or, Option.some_or]
      · have hcompare : compare name' name ≠ .eq := fun h => he (Std.compare_eq_iff_eq.mp h)
        rw [Std.ExtTreeMap.getElem?_insert, if_neg hcompare]
        split
        · rfl
        · rw [Std.ExtTreeMap.getElem?_insert, if_neg hcompare]

/-- Names bound one after the other have their last bindings. -/
theorem foldl_insert_empty (l : List (String × β)) :
    l.foldl (fun t p => t.insert p.1 p.2) ∅ = lastOf l := by
  apply Std.ExtTreeMap.ext_getElem?
  intro name
  rw [getElem?_foldl_insert, Std.ExtTreeMap.getElem?_empty, Option.or_none]

theorem lastOf_concat (l : List (String × β)) (name : String) (b : β) :
    lastOf (l ++ [(name, b)]) = (lastOf l).insert name b := by
  rw [← foldl_insert_empty, List.foldl_append, foldl_insert_empty]
  rfl

end HybridHeap
