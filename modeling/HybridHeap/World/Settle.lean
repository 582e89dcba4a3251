import HybridHeap.World.Basic

/-!
Destruction. Dropping a handle can free closures, a freed closure lets go of its
environment, and a destroyed environment drops the handles of its variables. The
chores still to be done are kept as a list, and what a chore gives rise to comes
before the others.
-/

namespace HybridHeap

/-- A thing to let go of: a rooted handle, a handle inside a value that was never
placed, or a share of an environment. -/
inductive Chore
  | dropRoot (root : Root)
  | dropAnchor (root : Root)
  | leave (env : EnvId)
  deriving Repr, DecidableEq

/-- The shares of environments that the freed cells still hold, those of the cell
freed first in front. -/
def Reclamation.payloads (r : Reclamation) : List Chore :=
  (r.graveyard.reverse.filterMap fun freed => freed.value.env?).map .leave

/-- The handles of an environment's variables, in the order of the names. -/
def Environment.roots (env : Environment) : List Root :=
  env.bindings.values.filterMap id

/-- What a destroyed environment lets go of: its parent, then its variables. -/
def Environment.estate (env : Environment) (order : DropOrder) : List Chore :=
  env.parent.toList.map .leave ++ (order.arrange env.roots).map .dropRoot

namespace World

/-- Enter the outcome of a heap's work, and answer what it leaves to be let go
of. -/
def commit (w : World) (i : HeapId) (r : Reclamation) : World × List Chore :=
  ({ w.setHeap i r.heap with events := r.events ++ w.events }, r.payloads)

def reclaim (w : World) (i : HeapId) (work : Heap → Reclamation) : World × List Chore :=
  match w.heap? i with
  | none => (w, [])
  | some h => w.commit i (work h)

/-- Give up one share of an environment. -/
def leave (w : World) (e : EnvId) : World × List Chore :=
  match w.envs[e]? with
  | none => (w, [])
  | some env =>
    if env.owners ≤ 1 then
      ({ w with envs := w.envs.erase e }, env.estate (w.dropOrder e))
    else
      (w.modifyEnv e fun env => { env with owners := env.owners - 1 }, [])

/-- Do one chore, and answer the chores that it gives rise to. -/
def doChore (w : World) : Chore → World × List Chore
  | .dropRoot r => w.reclaim r.cell.heap fun h => h.dropRoot r
  | .dropAnchor r => w.reclaim r.cell.heap fun h => h.dropAnchor r
  | .leave e => w.leave e

theorem foldr_add_set {α : Type} (f : α → Nat) {l : List α} {i : Nat} {a : α} (b : α)
    (h : l[i]? = some a) :
    (l.set i b).foldr (fun x n => f x + n) 0 + f a = l.foldr (fun x n => f x + n) 0 + f b := by
  induction l generalizing i with
  | nil => simp at h
  | cons x l ih =>
    cases i with
    | zero =>
      simp only [List.getElem?_cons_zero, Option.some.injEq] at h
      subst h
      simp only [List.set_cons_zero, List.foldr_cons]
      omega
    | succ i =>
      simp only [List.getElem?_cons_succ] at h
      have := ih h
      simp only [List.set_cons_succ, List.foldr_cons]
      omega

theorem liveCells_setHeap {w : World} {i : HeapId} {h : Heap} (h' : Heap)
    (hi : w.heap? i = some h) :
    (w.setHeap i h').liveCells + h.objects.size = w.liveCells + h'.objects.size := by
  simp only [liveCells, setHeap, Array.toList_setIfInBounds]
  exact foldr_add_set _ _ (by simpa [heap?] using hi)

theorem length_payloads_le (r : Reclamation) : r.payloads.length ≤ r.graveyard.length := by
  simpa [Reclamation.payloads] using List.length_filterMap_le _ r.graveyard.reverse

@[simp] theorem envs_reclaim (w : World) (i : HeapId) (work : Heap → Reclamation) :
    (w.reclaim i work).1.envs = w.envs := by
  unfold reclaim
  split <;> rfl

theorem liveCells_reclaim (w : World) (i : HeapId) {work : Heap → Reclamation}
    (hw : ∀ h, (work h).weight = h.objects.size) :
    (w.reclaim i work).1.liveCells + (w.reclaim i work).2.length ≤ w.liveCells := by
  unfold reclaim
  split
  · simp
  · rename_i h hi
    have hs := liveCells_setHeap (work h).heap hi
    have hp := length_payloads_le (work h)
    have hh := hw h
    simp only [Reclamation.weight] at hh
    simp only [commit, liveCells] at hs ⊢
    omega

/-- A chore destroys an environment, or what is left to do gets less. -/
theorem doChore_decreases (w : World) (c : Chore) :
    (w.doChore c).1.envs.size < w.envs.size ∨
      (w.doChore c).1.envs.size = w.envs.size ∧
        (w.doChore c).1.liveCells + (w.doChore c).2.length ≤ w.liveCells := by
  cases c with
  | dropRoot r =>
    exact .inr ⟨by simp [doChore], liveCells_reclaim w _ fun h => h.weight_dropRoot r⟩
  | dropAnchor r =>
    exact .inr ⟨by simp [doChore], liveCells_reclaim w _ fun h => h.weight_dropAnchor r⟩
  | leave e =>
    simp only [doChore, leave]
    split
    · exact .inr ⟨rfl, by simp⟩
    · rename_i env he
      split
      · have : e ∈ w.envs := by simp [Std.ExtTreeMap.mem_iff_isSome_getElem?, he]
        have := size_erase_add_one this
        exact .inl (by simp only; omega)
      · exact .inr ⟨by simp [modifyEnv, Std.ExtTreeMap.size_modify], by simp [modifyEnv, liveCells]⟩

/-- Do all chores, each with everything that follows from it before the next. -/
def settle (w : World) (chores : List Chore) : World :=
  match chores with
  | [] => w
  | c :: rest =>
    settle (w.doChore c).1 ((w.doChore c).2 ++ rest)
termination_by (w.envs.size, w.liveCells + chores.length)
decreasing_by
  rcases w.doChore_decreases c with h | ⟨h, hl⟩
  · exact Prod.Lex.left _ _ h
  · rw [h]
    exact Prod.Lex.right _ (by simp only [List.length_append, List.length_cons]; omega)

/-- Enter the outcome of a heap's work and see to everything it leaves. -/
def finish (w : World) (i : HeapId) (r : Reclamation) : World :=
  (w.commit i r).1.settle (w.commit i r).2

/-- Let one heap work and see to everything it leaves. -/
def work (w : World) (i : HeapId) (f : Heap → Reclamation) : World :=
  match w.heap? i with
  | none => w
  | some h => w.finish i (f h)

/-- Drop handles in order. -/
def dropAll (w : World) (hs : List Handle) : World :=
  w.settle ((hs.filterMap id).map .dropRoot)

def drop (w : World) (h : Handle) : World :=
  w.dropAll [h]

/-- Drop a value that was never placed: its slots in order, or its share of an
environment. -/
def discard (w : World) (v : Value Handle) : World :=
  w.settle (v.anchors.map .dropAnchor ++ v.env?.toList.map .leave)

/-- Give up a share of an environment, and see to everything that follows. -/
def leaveEnv (w : World) (e : EnvId) : World :=
  w.settle [.leave e]

end World

end HybridHeap
