import Mathlib.Logic.Function.Basic
import HybridHeap.Proofs.Unmanaged.Growth

/-!
What is added to a store is in order of its creation. A scope has the rank of the first cell
that can capture it: everything it binds is older than that, and whatever captures it is not.
So references from what was added lead downwards, however cyclic the store was before.
-/

namespace HybridHeap

namespace Unmanaged

namespace Store

/-- Ranks of the scopes of a store that has grown from `st₀`. What was there at the start has
the lowest rank. -/
structure Ranked (st₀ : Store) (rank : EnvId → Nat) (st : Store) : Prop where
  old : ∀ e, e < st₀.nextEnv → rank e = st₀.nextCell
  bounded : ∀ e, st₀.nextCell ≤ rank e ∧ rank e ≤ st.nextCell
  slot : ∀ (c : CellId) (v : Value Slot), st.cells[c]? = some v → ∀ d ∈ v.targets,
    d.number < st₀.nextCell ∨ d.number < c.number
  captured : ∀ (c : CellId) (v : Value Slot), st.cells[c]? = some v → ∀ e ∈ v.env?,
    e < st₀.nextEnv ∨ rank e ≤ c.number
  bound : ∀ (e : EnvId) (sc : Scope), st.scopes[e]? = some sc →
    ∀ (name : String) (d : CellId), sc.bindings[name]? = some (some d) → d.number < rank e
  parent : ∀ (e : EnvId) (sc : Scope), st.scopes[e]? = some sc → ∀ p ∈ sc.parent,
    rank p ≤ rank e ∧ p < e

variable {st₀ st : Store} {rank : EnvId → Nat}

/-- At the start all ranks are the same. -/
theorem Closed.ranked (hc : st.Closed) : Ranked st (fun _ => st.nextCell) st where
  old _ _ := rfl
  bounded _ := ⟨Nat.le_refl _, Nat.le_refl _⟩
  slot c v hf d hd := .inl ((hc.cells c v hf).2.targets d hd)
  captured c v hf e he := .inl ((hc.cells c v hf).2.env e he)
  bound e sc he name d hn := (hc.scopes e sc he).2.bindings name (some d) hn d rfl
  parent e sc he p hp := ⟨Nat.le_refl _, (hc.scopes e sc he).2.parent p hp⟩

/-- A new cell is younger than all it refers to. -/
theorem Ranked.cell (hr : Ranked st₀ rank st) {c : CellId} {v : Value Slot}
    (hc : c.number = st.nextCell) (hv : st.Admits v) :
    Ranked st₀ rank { st with
      cells := st.cells.insert c v, nextCell := st.nextCell + 1 } where
  old := hr.old
  bounded e := ⟨(hr.bounded e).1, Nat.le_succ_of_le (hr.bounded e).2⟩
  slot d v' hf x hx := by
    rcases eq_or_of_getElem?_insert hf with ⟨rfl, rfl⟩ | hf
    · exact .inr (hc ▸ hv.targets x hx)
    · exact hr.slot d v' hf x hx
  captured d v' hf e he := by
    rcases eq_or_of_getElem?_insert hf with ⟨rfl, rfl⟩ | hf
    · exact .inr (hc ▸ (hr.bounded e).2)
    · exact hr.captured d v' hf e he
  bound := hr.bound
  parent := hr.parent

/-- A new scope has the rank of the cell that comes next. Nothing refers to it yet. -/
theorem Ranked.scope (hr : Ranked st₀ rank st) (hg : st₀.Grows st) (hc : st.Closed)
    {sc : Scope} (hs : st.AdmitsScope st.nextEnv sc) :
    Ranked st₀ (Function.update rank st.nextEnv st.nextCell) (st.enter sc) := by
  have hother : ∀ {e : EnvId}, e < st.nextEnv →
      Function.update rank st.nextEnv st.nextCell e = rank e :=
    fun he => Function.update_of_ne (Nat.ne_of_lt he) _ _
  have hself : Function.update rank st.nextEnv st.nextCell st.nextEnv = st.nextCell :=
    Function.update_self _ _ _
  constructor
  · intro e he
    rw [hother (Nat.lt_of_lt_of_le he hg.numbers.2)]
    exact hr.old e he
  · intro e
    by_cases he : e = st.nextEnv
    · rw [he, hself]
      exact ⟨hg.numbers.1, Nat.le_refl _⟩
    · rw [Function.update_of_ne he]
      exact hr.bounded e
  · exact hr.slot
  · intro c v hf e he
    rw [hother ((hc.cells c v hf).2.env e he)]
    exact hr.captured c v hf e he
  · intro e sc' he name d hn
    rcases eq_or_of_getElem?_insert he with ⟨rfl, rfl⟩ | he
    · rw [hself]
      exact hs.bindings name (some d) hn d rfl
    · rw [hother (hc.scopes e sc' he).1]
      exact hr.bound e sc' he name d hn
  · intro e sc' he p hp
    rcases eq_or_of_getElem?_insert he with ⟨rfl, rfl⟩ | he
    · have hlt := hs.parent p hp
      rw [hself, hother hlt]
      exact ⟨(hr.bounded p).2, hlt⟩
    · obtain ⟨hlt, hadmits⟩ := hc.scopes e sc' he
      rw [hother hlt, hother (Nat.lt_trans (hadmits.parent p hp) hlt)]
      exact hr.parent e sc' he p hp

/-- The scopes of a store that has grown can be ranked. -/
theorem Grows.ranked (hg : st₀.Grows st) (hc : st₀.Closed) : ∃ rank, Ranked st₀ rank st := by
  induction hg with
  | refl => exact ⟨_, hc.ranked⟩
  | cell _ hn hv ih =>
      obtain ⟨rank, hr⟩ := ih
      exact ⟨rank, hr.cell hn hv⟩
  | scope hg hs ih =>
      obtain ⟨rank, hr⟩ := ih
      exact ⟨_, hr.scope hg (hg.closed hc) hs⟩

end Store

end Unmanaged

end HybridHeap
