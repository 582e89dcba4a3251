import HybridHeap.Proofs.World.Shrink

/-!
The worlds that are passed while chores are done. Each of them is in balance, and what is
alive in it was alive before with the same contents; so whatever leads from something that
is still owned in the end is alive in all of them.
-/

namespace HybridHeap

namespace World

/-- The worlds that are passed while chores are done with everything that follows from
them, the first and the last one included. -/
inductive Passes : World → List Chore → World → Prop
  | here (w : World) (chores : List Chore) : Passes w chores w
  | later {w w' : World} {c : Chore} {rest : List Chore}
      (hp : Passes (w.doChore c).1 ((w.doChore c).2 ++ rest) w') : Passes w (c :: rest) w'

variable {w w' : World} {held : List Holding} {write : Option Writing}

theorem passes_settle (w : World) (chores : List Chore) : w.Passes chores (w.settle chores) := by
  fun_induction World.settle w chores with
  | case1 w => exact .here w []
  | case2 w c rest ih => exact .later ih

/-- Every world that is passed is in balance, and only less than the first one. -/
theorem Balanced.passes {chores : List Chore} (hp : w.Passes chores w')
    (hb : w.Balanced (chores.map Chore.holding ++ held) write) :
    w.Shrinks w' ∧ ∃ held', w'.Balanced (held' ++ held) write := by
  induction hp with
  | here w chores => exact ⟨.refl w, _, hb⟩
  | @later w w' c rest _ ih =>
      have hstep : (w.doChore c).1.Balanced
          (((w.doChore c).2 ++ rest).map Chore.holding ++ held) write := by
        rw [List.map_append, List.append_assoc]
        exact hb.doChore
      obtain ⟨hs, hb'⟩ := ih hstep
      exact ⟨hb.shrinks_doChore.trans hs, hb'⟩

end World

end HybridHeap
