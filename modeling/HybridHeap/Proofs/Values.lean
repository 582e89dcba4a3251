import HybridHeap.Value.Position

/-!
The references of values under the operations on values: placing a value turns its
anchors into slots, and replacing one reference leaves the others where they are.
-/

namespace HybridHeap

/-- The number of the child at a position. -/
def Position.index : Position → Nat
  | first => 0
  | second => 1
  | element i => i

/-- Null references drop out of a list of references. -/
theorem filterMap_id_cons {α : Type} (x : Option α) (xs : List (Option α)) :
    (x :: xs).filterMap id = x.toList ++ xs.filterMap id := by
  cases x <;> rfl

namespace Value

variable {ρ : Type}

theorem targets_placed (v : Value Handle) : v.placed.targets = v.anchors.map Root.cell := by
  show ((v.map Handle.target).children).filterMap id = _
  rw [children_map, anchors]
  induction v.children with
  | nil => rfl
  | cons h hs ih =>
      rw [List.map_cons, filterMap_id_cons, filterMap_id_cons, ih, List.map_append]
      cases h <;> rfl

@[simp] theorem env?_placed (v : Value Handle) : v.placed.env? = v.env? :=
  env?_map ..

@[simp] theorem env?_nulled (v : Value Slot) : v.nulled.env? = v.env? :=
  env?_map ..

/-- A position that can be read is one place among the references of the value, and
replacing it changes that place only. -/
theorem children_replace {v : Value ρ} {p : Position} {x : ρ} (h : v.get p = .ok x) :
    ∃ l₁ l₂, v.children = l₁ ++ x :: l₂ ∧
      ∀ y, (v.replace p y).children = l₁ ++ y :: l₂ := by
  cases v with
  | scalar s => cases p <;> cases h
  | closure c e => cases p <;> cases h
  | pair a b =>
      cases p with
      | first =>
          cases h
          exact ⟨[], [b], rfl, fun _ => rfl⟩
      | second =>
          cases h
          exact ⟨[a], [], rfl, fun _ => rfl⟩
      | element i => cases h
  | vector es =>
      cases p with
      | first => cases h
      | second => cases h
      | element i =>
          simp only [get] at h
          split at h
          · rename_i e he
            cases h
            obtain ⟨hi, rfl⟩ := Array.getElem?_eq_some_iff.mp he
            refine ⟨es.toList.take i, es.toList.drop (i + 1), ?_, fun y => ?_⟩
            · show es.toList = _
              rw [← Array.getElem_toList, ← List.drop_eq_getElem_cons, List.take_append_drop]
            · show (es.setIfInBounds i y).toList = _
              rw [Array.toList_setIfInBounds, List.set_eq_take_append_cons_drop,
                if_pos (by simpa using hi)]
          · cases h

/-- What is read at a position is the child there, and only that child is replaced. -/
theorem get_eq_ok {v : Value ρ} {p : Position} {x : ρ} (h : v.get p = .ok x) (y : ρ) :
    v.children[p.index]? = some x ∧ (v.replace p y).children = v.children.set p.index y ∧
      (v.replace p y).kind = v.kind := by
  cases v with
  | scalar s => cases p <;> cases h
  | closure c e => cases p <;> cases h
  | pair a b =>
      cases p with
      | element i => cases h
      | first =>
          cases h
          exact ⟨rfl, rfl, rfl⟩
      | second =>
          cases h
          exact ⟨rfl, rfl, rfl⟩
  | vector es =>
      cases p with
      | first => cases h
      | second => cases h
      | element i =>
          simp only [get] at h
          split at h
          · rename_i e he
            cases h
            exact ⟨by simpa [children, Position.index] using he, Array.toList_setIfInBounds .., rfl⟩
          · cases h

/-- Replacing a child by itself changes nothing. -/
theorem replace_self {v : Value ρ} {p : Position} {x : ρ} (h : v.get p = .ok x) :
    v.replace p x = v := by
  obtain ⟨hx, hchildren, hkind⟩ := get_eq_ok h x
  cases v with
  | scalar s => cases p <;> cases h
  | closure c e => cases p <;> cases h
  | pair a b => cases p <;> cases h <;> rfl
  | vector es =>
      cases p with
      | first => cases h
      | second => cases h
      | element i =>
          obtain ⟨hi, hget⟩ := List.getElem?_eq_some_iff.mp hx
          have hset : (es.setIfInBounds i x).toList = es.toList :=
            hchildren.trans (hget ▸ List.set_getElem_self hi)
          exact congrArg vector (Array.toList_inj.mp hset)

theorem env?_replace (v : Value ρ) (p : Position) (x : ρ) : (v.replace p x).env? = v.env? := by
  cases v <;> cases p <;> rfl

theorem children_setChild {v : Value ρ} {index : Nat} {old : ρ}
    (h : v.children[index]? = some old) (x : ρ) :
    (v.setChild index x).children = v.children.set index x := by
  cases v with
  | scalar s => simp [children] at h
  | closure c e => simp [children] at h
  | vector es => exact Array.toList_setIfInBounds ..
  | pair a b =>
      rcases index with _ | _ | n
      · rfl
      · rfl
      · simp [children] at h

@[simp] theorem env?_setChild (v : Value ρ) (index : Nat) (x : ρ) :
    (v.setChild index x).env? = v.env? := by
  unfold setChild
  split <;> rfl

theorem map_setChild {σ : Type} (f : ρ → σ) (v : Value ρ) (index : Nat) (x : ρ) :
    (v.setChild index x).map f = (v.map f).setChild index (f x) := by
  cases v with
  | scalar s => rfl
  | closure c e => rfl
  | vector es => simp [setChild, map]
  | pair a b => rcases index with _ | _ | n <;> rfl

theorem kind_append {v v' : Value ρ} {x : ρ} (h : v.append x = .ok v') : v'.kind = v.kind := by
  cases v <;> cases h
  rfl

theorem append_eq_ok {v v' : Value ρ} {x : ρ} (h : v.append x = .ok v') :
    v'.children = v.children ++ [x] ∧ v'.env? = v.env? := by
  cases v with
  | scalar s => cases h
  | closure c e => cases h
  | pair a b => cases h
  | vector es =>
      cases h
      exact ⟨by simp [children], rfl⟩

end Value

end HybridHeap
