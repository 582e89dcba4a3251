import HybridHeap.LinkedMap.Size

/-!
A linked map seen as the list of its entries. The links of a sound map say
nothing but the order of that list: an insertion puts an entry in front of the
list, and a removal takes one out wherever it stands.
-/

namespace HybridHeap

namespace LinkedMap

section Entries

variable {κ α : Type} [DecidableEq κ]

/-- What a map that holds the items of a list in its order stores under a key, if
the first item has the given newer neighbour. -/
def entryIn (newer : Option κ) (k : κ) : List (κ × α) → Option (Linked κ α)
  | [] => none
  | (k', a) :: l =>
    if k' = k then some { newer, older := l.head?.map Prod.fst, item := a }
    else entryIn (some k') k l

theorem entryIn_eq_none {newer : Option κ} {k : κ} {l : List (κ × α)}
    (h : k ∉ l.map Prod.fst) : entryIn newer k l = none := by
  induction l generalizing newer with
  | nil => rfl
  | cons p l ih =>
    simp only [List.map_cons, List.mem_cons, not_or] at h
    simp [entryIn, Ne.symm h.1, ih h.2]

theorem item_entryIn (newer : Option κ) (k : κ) (l : List (κ × α)) :
    (entryIn newer k l).map Linked.item = (l.find? fun p => p.1 = k).map Prod.snd := by
  induction l generalizing newer with
  | nil => rfl
  | cons p l ih =>
    by_cases h : p.1 = k
    · simp [entryIn, h]
    · simp [entryIn, h, ih]

theorem exists_append_of_mem {k : κ} {l : List (κ × α)} (h : k ∈ l.map Prod.fst) :
    ∃ l₁ a l₂, l = l₁ ++ (k, a) :: l₂ ∧ k ∉ l₁.map Prod.fst := by
  induction l with
  | nil => simp at h
  | cons p l ih =>
    by_cases hk : p.1 = k
    · exact ⟨[], p.2, l, by simp [← hk], by simp⟩
    · simp only [List.map_cons, List.mem_cons, Ne.symm hk, false_or] at h
      obtain ⟨l₁, a, l₂, rfl, hl⟩ := ih h
      exact ⟨p :: l₁, a, l₂, rfl, by simp [Ne.symm hk, hl]⟩

theorem entryIn_append_cons {newer : Option κ} {k : κ} {l₁ l₂ : List (κ × α)} {a : α}
    (h : k ∉ l₁.map Prod.fst) :
    entryIn newer k (l₁ ++ (k, a) :: l₂) =
      some { newer := (l₁.getLast?.map Prod.fst).or newer, older := l₂.head?.map Prod.fst,
             item := a } := by
  induction l₁ generalizing newer with
  | nil => simp [entryIn]
  | cons p l₁ ih =>
    simp only [List.map_cons, List.mem_cons, not_or] at h
    simp only [List.cons_append, entryIn, Ne.symm h.1, if_false, ih h.2]
    cases l₁ with
    | nil => simp
    | cons q l₁ => simp [List.getLast?_cons]

theorem entryIn_map (f : κ → α → α) (newer : Option κ) (k : κ) (l : List (κ × α)) :
    entryIn newer k (l.map fun p => (p.1, f p.1 p.2)) =
      (entryIn newer k l).map fun e => { e with item := f k e.item } := by
  induction l generalizing newer with
  | nil => rfl
  | cons p l ih =>
    by_cases h : p.1 = k
    · cases l <;> simp [entryIn, h]
    · simp [entryIn, h, ih]

/-- Taking the item of another key out of a list changes an entry only in the
links that pointed at that item. -/
theorem entryIn_append_of_ne {newer : Option κ} {j k : κ} {l₁ l₂ : List (κ × α)} {a : α}
    (hj : k ≠ j) (hd : ((l₁ ++ l₂).map Prod.fst).Nodup) :
    entryIn newer j (l₁ ++ l₂) =
      (entryIn newer j (l₁ ++ (k, a) :: l₂)).map fun e =>
        { newer := if l₂.head?.map Prod.fst = some j then (l₁.getLast?.map Prod.fst).or newer
                   else e.newer,
          older := if l₁.getLast?.map Prod.fst = some j then l₂.head?.map Prod.fst else e.older,
          item := e.item } := by
  induction l₁ generalizing newer with
  | nil =>
    cases l₂ with
    | nil => simp [entryIn, hj]
    | cons q l₂ =>
      by_cases hq : q.1 = j
      · simp [entryIn, hj, hq]
      · simp [entryIn, hj, hq]
  | cons p l₁ ih =>
    simp only [List.cons_append, List.map_cons, List.nodup_cons, List.map_append,
      List.mem_append, not_or] at hd
    have hhead : l₂.head?.map Prod.fst ≠ some p.1 := by
      intro h
      obtain ⟨q, hq, he⟩ := Option.map_eq_some_iff.1 h
      exact hd.1.2 (List.mem_map.2 ⟨q, List.mem_of_head? hq, he⟩)
    by_cases hp : p.1 = j
    · subst hp
      cases l₁ with
      | nil => simp [entryIn, hhead]
      | cons q l₁ =>
        have hlast : ((q :: l₁).getLast?.map Prod.fst) ≠ some p.1 := by
          intro h
          obtain ⟨r, hr, he⟩ := Option.map_eq_some_iff.1 h
          exact hd.1.1 (List.mem_map.2 ⟨r, List.mem_of_getLast? hr, he⟩)
        simp only [List.getLast?_cons_cons]
        simp [entryIn, hhead, hlast]
    · have ih' := @ih (some p.1) (by simpa using hd.2)
      simp only [List.cons_append, entryIn, hp, if_false, ih']
      cases l₁ with
      | nil => simp [hp]
      | cons q l₁ => simp [List.getLast?_cons]

end Entries

section Maps

variable {κ α : Type} [Ord κ] [Std.TransOrd κ] [DecidableEq κ]

/-- The map holds exactly the items of the list, in its order. -/
structure Represents (m : LinkedMap κ α) (l : List (κ × α)) : Prop where
  nodup : (l.map Prod.fst).Nodup
  newest : m.newest = l.head?.map Prod.fst
  length : m.length = l.length
  entries : ∀ k, m.entries[k]? = entryIn none k l

theorem represents_empty : Represents (empty : LinkedMap κ α) [] where
  nodup := .nil
  newest := rfl
  length := rfl
  entries k := by simp [empty, entryIn]

theorem Represents.find?_eq {m : LinkedMap κ α} {l : List (κ × α)} (h : m.Represents l) (k : κ) :
    m.find? k = (l.find? fun p => p.1 = k).map Prod.snd := by
  rw [find?, h.entries, item_entryIn]

theorem Represents.contains_iff {m : LinkedMap κ α} {l : List (κ × α)} (h : m.Represents l)
    (k : κ) : m.contains k = true ↔ k ∈ l.map Prod.fst := by
  rw [contains, Std.ExtTreeMap.contains_eq_isSome_getElem?, h.entries]
  constructor
  · intro hs
    by_cases hk : k ∈ l.map Prod.fst
    · exact hk
    · simp [entryIn_eq_none hk] at hs
  · intro hk
    obtain ⟨l₁, a, l₂, rfl, hl⟩ := exists_append_of_mem hk
    simp [entryIn_append_cons hl]

/-- Walking from the head of a suffix of the list yields that suffix. -/
theorem walk_suffix {m : LinkedMap κ α} {l₁ l₂ : List (κ × α)} (h : m.Represents (l₁ ++ l₂)) :
    m.walk l₂.length (l₂.head?.map Prod.fst) = l₂ := by
  induction l₂ generalizing l₁ with
  | nil => rfl
  | cons p l₂ ih =>
    have hk : p.1 ∉ l₁.map Prod.fst := by
      have hd := h.nodup
      simp only [List.map_append, List.map_cons, List.nodup_append] at hd
      exact fun hm => hd.2.2 p.1 hm p.1 (by simp) rfl
    have he := h.entries p.1
    rw [entryIn_append_cons hk] at he
    have ih' := @ih (l₁ ++ [p]) (by simpa using h)
    simp only [List.length_cons, List.head?_cons, Option.map_some, walk, he, ih']

theorem Represents.toList_eq {m : LinkedMap κ α} {l : List (κ × α)} (h : m.Represents l) :
    m.toList = l := by
  rw [toList, h.length, h.newest]
  exact walk_suffix (show m.Represents ([] ++ l) from h)

variable [Std.LawfulEqOrd κ]

theorem getElem?_relinkNewer (t : Std.ExtTreeMap κ (Linked κ α)) (k newer : Option κ) (j : κ) :
    (relinkNewer t k newer)[j]? =
      if k = some j then t[j]?.map fun e : Linked κ α => { e with newer := newer } else t[j]? := by
  cases k with
  | none => simp [relinkNewer]
  | some k =>
    simp only [relinkNewer, Std.ExtTreeMap.getElem?_modify, Std.compare_eq_iff_eq,
      Option.some.injEq]
    split
    · simp_all
    · rfl

theorem getElem?_relinkOlder (t : Std.ExtTreeMap κ (Linked κ α)) (k older : Option κ) (j : κ) :
    (relinkOlder t k older)[j]? =
      if k = some j then t[j]?.map fun e : Linked κ α => { e with older := older } else t[j]? := by
  cases k with
  | none => simp [relinkOlder]
  | some k =>
    simp only [relinkOlder, Std.ExtTreeMap.getElem?_modify, Std.compare_eq_iff_eq,
      Option.some.injEq]
    split
    · simp_all
    · rfl

/-- A key that is not on the list yet is accepted in front of it. -/
theorem Represents.pushFront {m : LinkedMap κ α} {l : List (κ × α)} (h : m.Represents l)
    {k : κ} (hk : k ∉ l.map Prod.fst) (a : α) :
    ∃ m', m.pushFront k a = .ok m' ∧ m'.Represents ((k, a) :: l) := by
  have hc : ¬ m.contains k = true := fun hc => hk ((h.contains_iff k).1 hc)
  refine ⟨_, if_neg hc, ?_⟩
  refine { nodup := by simpa using ⟨by simpa using hk, h.nodup⟩, newest := rfl,
           length := by simp [h.length], entries := fun j => ?_ }
  rw [Std.ExtTreeMap.getElem?_insert]
  by_cases hj : k = j
  · simp [hj, entryIn, h.newest]
  · simp only [Std.compare_eq_iff_eq, hj, if_false, entryIn, getElem?_relinkNewer, h.newest,
      h.entries]
    cases l with
    | nil => simp [entryIn]
    | cons p l =>
      by_cases hp : p.1 = j
      · simp [entryIn, hp]
      · simp [entryIn, hp]

/-- A key on the list can be taken out wherever it stands. -/
theorem Represents.remove {m : LinkedMap κ α} {l₁ l₂ : List (κ × α)} {k : κ} {a : α}
    (h : m.Represents (l₁ ++ (k, a) :: l₂)) :
    ∃ m', m.remove k = .ok m' ∧ m'.Represents (l₁ ++ l₂) := by
  have hd := h.nodup
  simp only [List.map_append, List.map_cons] at hd
  rw [List.perm_middle.nodup_iff, List.nodup_cons, ← List.map_append] at hd
  obtain ⟨hk, hd'⟩ := hd
  simp only [List.map_append, List.mem_append, not_or] at hk
  have he := h.entries k
  rw [entryIn_append_cons hk.1, Option.or_none] at he
  have hhead : ¬(l₁.getLast?.map Prod.fst = none ∧ m.newest ≠ some k) := by
    rintro ⟨hl, hm⟩
    rw [Option.map_eq_none_iff, List.getLast?_eq_none_iff] at hl
    subst hl
    exact hm h.newest
  have hlen : m.length ≠ 0 := by
    rw [h.length]
    simp
  refine ⟨_, by simp only [LinkedMap.remove, he, hhead, hlen, if_false]; rfl, ?_⟩
  refine { nodup := hd', newest := ?_, length := ?_, entries := fun j => ?_ }
  · cases l₁ with
    | nil => simp
    | cons p l₁ => simp [h.newest, List.getLast?_cons]
  · simp [h.length]
  · simp only [getElem?_relinkNewer, getElem?_relinkOlder, Std.ExtTreeMap.getElem?_erase,
      Std.compare_eq_iff_eq]
    by_cases hj : k = j
    · subst hj
      rw [entryIn_eq_none (by simpa using hk)]
      simp
    · rw [entryIn_append_of_ne hj hd', h.entries j, if_neg hj]
      cases entryIn none j (l₁ ++ (k, a) :: l₂) with
      | none => simp
      | some e => by_cases h₁ : l₂.head?.map Prod.fst = some j <;>
          by_cases h₂ : l₁.getLast?.map Prod.fst = some j <;> simp [h₁, h₂]

theorem Represents.modify {m : LinkedMap κ α} {l : List (κ × α)} (h : m.Represents l) (k : κ)
    (f : α → α) :
    (m.modify k f).Represents (l.map fun p => (p.1, if p.1 = k then f p.2 else p.2)) where
  nodup := by simpa [Function.comp_def] using h.nodup
  newest := by simp [LinkedMap.modify, h.newest, Function.comp_def]
  length := by simp [LinkedMap.modify, h.length]
  entries j := by
    rw [entryIn_map (fun k' a => if k' = k then f a else a), ← h.entries]
    simp only [LinkedMap.modify, Std.ExtTreeMap.getElem?_modify, Std.compare_eq_iff_eq]
    by_cases hj : k = j
    · simp [hj]
    · simp [hj, Ne.symm hj]

theorem Represents.mapItems {m : LinkedMap κ α} {l : List (κ × α)} (h : m.Represents l)
    (f : α → α) : (m.mapItems f).Represents (l.map fun p => (p.1, f p.2)) where
  nodup := by simpa [Function.comp_def] using h.nodup
  newest := by simp [LinkedMap.mapItems, h.newest, Function.comp_def]
  length := by simp [LinkedMap.mapItems, h.length]
  entries j := by
    rw [entryIn_map (fun _ a => f a), ← h.entries]
    simp only [LinkedMap.mapItems, Std.ExtTreeMap.getElem?_map]

end Maps

end LinkedMap

end HybridHeap
