import Mathlib.Algebra.Order.Group.Multiset
import Mathlib.Logic.Relation
import HybridHeap.Proofs.Heap.Yield
import HybridHeap.Proofs.World.Balance

/-!
Destruction in its smallest steps. What is still to be given up is a bag of errands, and
any of them may be run next; the errands that it gives rise to join the bag. Different
errands do not get in each other's way (`World.run_comm`, `World.sequel_run`), so whatever
order they are run in, a bag that is worked off leaves the same world (`Errands.unique`).
-/

namespace HybridHeap

open Relation (ReflTransGen ReflGen)

/-- Something to be given up on a heap: the entry of a root, what is queued, a reference to
a cell. -/
inductive Heap.Errand
  | root (r : Root)
  | queue
  | ref (c : CellId)
  deriving DecidableEq

/-- Something to be given up in a world: an errand on a heap, or a share of an environment. -/
inductive Errand
  | on (i : HeapId) (x : Heap.Errand)
  | share (e : EnvId)
  deriving DecidableEq

def Chore.errand : Chore → Errand
  | dropRoot r => .on r.cell.heap (.root r)
  | dropAnchor r => .on r.cell.heap (.root r)
  | leave e => .share e

namespace Heap

variable {h : Heap} {x y : Errand}

def run (h : Heap) : Errand → Heap
  | .root r => h.strike r
  | .queue => h.unqueue
  | .ref c => h.yield c

/-- What a cell that goes leaves to be given up. -/
def legacy (i : HeapId) (cell : Cell) : List HybridHeap.Errand :=
  cell.value.targets.map (fun c => .on i (.ref c)) ++ cell.value.env?.toList.map .share

/-- What an errand on the heap `i` gives rise to. -/
def sequel (i : HeapId) (h : Heap) : Errand → List HybridHeap.Errand
  | .root r => [.on i (.ref r.cell), .on i .queue]
  | .queue => h.deferred.map fun c => .on i (.ref c)
  | .ref c => (h.last? c).toList.flatMap (legacy i)

theorem Sound.run (hs : h.Sound) (x : Errand) : (h.run x).Sound := by
  cases x with
  | root r => exact hs.strike r
  | queue => exact hs.unqueue
  | ref c => exact hs.yield c

theorem run_comm (hs : h.Sound) (hxy : x ≠ y) : (h.run x).run y = (h.run y).run x := by
  cases x with
  | root r =>
      cases y with
      | root s => exact strike_comm hs.roots r s
      | queue => exact h.strike_unqueue r
      | ref c => exact (h.yield_strike c r hs).symm
  | queue =>
      cases y with
      | root s => exact (h.strike_unqueue s).symm
      | queue => rfl
      | ref c => exact (h.yield_unqueue c).symm
  | ref c =>
      cases y with
      | root s => exact h.yield_strike c s hs
      | queue => exact h.yield_unqueue c
      | ref d => exact yield_comm hs.objects fun hcd => hxy (congrArg Errand.ref hcd)

/-- An errand does not change what another one gives rise to. -/
theorem sequel_run (hs : h.Sound) (i : HeapId) (hxy : x ≠ y) :
    (h.run x).sequel i y = h.sequel i y := by
  have hstrike : ∀ r, ∃ roots, h.strike r = { h with roots } := fun r => by
    obtain ⟨roots, -, -, he⟩ := strike_spec hs.roots r
    exact ⟨roots, he⟩
  cases y with
  | root s => rfl
  | queue =>
      cases x with
      | root r =>
          obtain ⟨roots, he⟩ := hstrike r
          rw [run, he]
          rfl
      | queue => exact absurd rfl hxy
      | ref c =>
          obtain ⟨objects, -, -, he⟩ := yield_spec hs.objects c
          rw [run, he]
          rfl
  | ref d =>
      cases x with
      | root r =>
          obtain ⟨roots, he⟩ := hstrike r
          rw [run, he]
          rfl
      | queue => rfl
      | ref c =>
          have hdc : d ≠ c := fun hdc => hxy (congrArg Errand.ref hdc.symm)
          rw [run, sequel, last?_yield_of_ne hs.objects hdc, sequel]

end Heap

namespace World

variable {w : World} {i j : HeapId} {e d : EnvId}

/-- All maps of all heaps are sound. -/
def Sound (w : World) : Prop :=
  ∀ i h, w.heap? i = some h → h.Sound

section Heaps

variable {f g : Heap → Heap}

theorem modifyHeap_eq (w : World) (i : HeapId) (f : Heap → Heap) :
    w.modifyHeap i f = { w with heaps := w.heaps.modify i f } := by
  have hheaps : (w.modifyHeap i f).heaps = w.heaps.modify i f := by
    apply Array.ext_getElem?
    intro k
    rw [Array.getElem?_modify, modifyHeap]
    cases hi : w.heap? i with
    | none =>
        dsimp only
        split
        · rename_i hik
          subst hik
          exact hi.trans (congrArg (Option.map f) hi).symm
        · rfl
    | some h =>
        dsimp only
        split
        · rename_i hik
          subst hik
          exact (heap?_setHeap_self hi _).trans (congrArg (Option.map f) hi).symm
        · rename_i hik
          exact heap?_setHeap_of_ne hik w _
  rw [← hheaps, modifyHeap]
  cases w.heap? i <;> rfl

theorem heap?_modifyHeap (w : World) (i j : HeapId) (f : Heap → Heap) :
    (w.modifyHeap i f).heap? j = if i = j then (w.heap? j).map f else w.heap? j := by
  rw [modifyHeap_eq]
  exact Array.getElem?_modify

theorem modifyHeap_comm (hfg : i = j → ∀ h, w.heap? i = some h → g (f h) = f (g h)) :
    (w.modifyHeap i f).modifyHeap j g = (w.modifyHeap j g).modifyHeap i f := by
  simp only [modifyHeap_eq]
  congr 1
  apply Array.ext_getElem?
  intro k
  simp only [Array.getElem?_modify]
  by_cases hi : i = k
  · by_cases hj : j = k
    · subst hi hj
      simp only [if_true]
      cases hk : w.heaps[j]? with
      | none => rfl
      | some h => exact congrArg some (hfg rfl h hk)
    · simp only [if_pos hi, if_neg hj]
  · simp only [if_neg hi]

theorem Sound.modifyHeap (hs : w.Sound) (i : HeapId) (hf : ∀ h : Heap, h.Sound → (f h).Sound) :
    (w.modifyHeap i f).Sound := by
  intro j h hj
  rw [heap?_modifyHeap] at hj
  split at hj
  · obtain ⟨h₀, hj₀, rfl⟩ := Option.map_eq_some_iff.mp hj
    exact hf h₀ (hs j h₀ hj₀)
  · exact hs j h hj

end Heaps

section Scopes

/-- What is left of an environment after one share of it is given up. -/
def shareless (env : Environment) : Option Environment :=
  if env.owners ≤ 1 then none else some { env with owners := env.owners - 1 }

/-- What `leave` does to the environments. -/
theorem leave_spec (w : World) (e : EnvId) :
    ∃ envs, (w.leave e).1 = { w with envs } ∧
      ∀ d : EnvId, envs[d]? = if e = d then (w.envs[d]?).bind shareless else w.envs[d]? := by
  simp only [leave]
  cases he : w.envs[e]? with
  | none =>
      refine ⟨w.envs, rfl, fun d => ?_⟩
      split
      · rename_i hed
        subst hed
        rw [he]
        rfl
      · rfl
  | some env =>
      dsimp only
      split
      · rename_i hlast
        refine ⟨w.envs.erase e, rfl, fun d => ?_⟩
        rw [Std.ExtTreeMap.getElem?_erase]
        simp only [Std.compare_eq_iff_eq]
        split
        · rename_i hed
          subst hed
          rw [he, Option.bind_some, shareless, if_pos hlast]
        · rfl
      · rename_i hlast
        refine ⟨_, rfl, fun d => ?_⟩
        rw [Std.ExtTreeMap.getElem?_modify]
        simp only [Std.compare_eq_iff_eq]
        split
        · rename_i hed
          subst hed
          rw [he, Option.bind_some, shareless, if_neg hlast]
          rfl
        · rfl

@[simp] theorem dropOrder_leave (w : World) (e : EnvId) :
    (w.leave e).1.dropOrder = w.dropOrder := by
  obtain ⟨envs, hleft, -⟩ := w.leave_spec e
  rw [hleft]

/-- What `leave` gives rise to is up to the environment and its drop order alone. -/
theorem leave_congr {w w' : World} (he : w'.envs[e]? = w.envs[e]?)
    (ho : w'.dropOrder = w.dropOrder) : (w'.leave e).2 = (w.leave e).2 := by
  simp only [leave, he, ho]
  split
  · rfl
  · split <;> rfl

theorem leave_comm (w : World) (hde : e ≠ d) :
    ((w.leave e).1.leave d).1 = ((w.leave d).1.leave e).1 := by
  obtain ⟨x, hx, hxe⟩ := w.leave_spec e
  obtain ⟨y, hy, hyd⟩ := w.leave_spec d
  obtain ⟨xy, hxy, hxyd⟩ := (w.leave e).1.leave_spec d
  obtain ⟨yx, hyx, hyxe⟩ := (w.leave d).1.leave_spec e
  have henvs : xy = yx := by
    apply Std.ExtTreeMap.ext_getElem?
    intro k
    rw [hxyd, hyxe, hx, hy]
    dsimp only
    rw [hxe, hyd]
    by_cases he : e = k
    · have hd : d ≠ k := fun hd => hde (he.trans hd.symm)
      simp only [if_pos he, if_neg hd]
    · simp only [if_neg he]
  rw [hxy, hyx, hx, hy, henvs]

theorem leave_modifyHeap (w : World) (e : EnvId) (i : HeapId) (f : Heap → Heap) :
    (w.modifyHeap i f).leave e = ((w.leave e).1.modifyHeap i f, (w.leave e).2) := by
  simp only [modifyHeap_eq, leave]
  split
  · rfl
  · split <;> rfl

theorem heap?_leave (w : World) (e : EnvId) (i : HeapId) :
    (w.leave e).1.heap? i = w.heap? i := by
  obtain ⟨envs, he, -⟩ := w.leave_spec e
  rw [he]
  rfl

end Scopes

def run (w : World) : Errand → World
  | .on i x => w.modifyHeap i fun h => h.run x
  | .share e => (w.leave e).1

/-- What an errand gives rise to. -/
def sequel (w : World) : Errand → List Errand
  | .on i x => (w.heap? i).toList.flatMap fun h => h.sequel i x
  | .share e => (w.leave e).2.map Chore.errand

variable {x y : Errand}

theorem Sound.run (hs : w.Sound) (x : Errand) : (w.run x).Sound := by
  cases x with
  | on i x => exact hs.modifyHeap i fun h hh => hh.run x
  | share e =>
      intro i h hi
      exact hs i h (by rwa [World.run, heap?_leave] at hi)

theorem run_comm (hs : w.Sound) (hxy : x ≠ y) : (w.run x).run y = (w.run y).run x := by
  cases x with
  | on i x =>
      cases y with
      | on j y =>
          refine modifyHeap_comm fun hij h hi => ?_
          refine Heap.run_comm (hs i h hi) fun heq => hxy ?_
          rw [hij, heq]
      | share e =>
          simp only [run]
          rw [leave_modifyHeap]
  | share e =>
      cases y with
      | on j y =>
          simp only [run]
          rw [leave_modifyHeap]
      | share d => exact leave_comm w fun hed => hxy (congrArg Errand.share hed)

/-- An errand does not change what another one gives rise to. -/
theorem sequel_run (hs : w.Sound) (hxy : x ≠ y) : (w.run x).sequel y = w.sequel y := by
  cases y with
  | on j y =>
      cases x with
      | on i x =>
          simp only [run, sequel, heap?_modifyHeap]
          split
          · rename_i hij
            subst hij
            cases hi : w.heap? i with
            | none => rfl
            | some h =>
                have hxy' : x ≠ y := fun heq => hxy (by rw [heq])
                simp only [Option.map_some, Option.toList_some, List.flatMap_cons,
                  Heap.sequel_run (hs i h hi) i hxy']
          · rfl
      | share e => simp only [run, sequel, heap?_leave]
  | share d =>
      cases x with
      | on i x => simp only [run, sequel, leave_modifyHeap]
      | share e =>
          obtain ⟨envs, he, hd⟩ := w.leave_spec e
          have hed : e ≠ d := fun hed => hxy (congrArg Errand.share hed)
          have hsame : (w.leave e).1.envs[d]? = w.envs[d]? := by
            rw [he]
            exact (hd d).trans (if_neg hed)
          simp only [run, sequel, leave_congr hsame (w.dropOrder_leave e)]

end World

namespace Errands

/-- One of the errands is run, and what it gives rise to joins the others. -/
inductive Step : World × Multiset Errand → World × Multiset Errand → Prop
  | run {w : World} {x : Errand} {rest : Multiset Errand} (hs : w.Sound) :
      Step (w, x ::ₘ rest) (w.run x, (w.sequel x : Multiset Errand) + rest)

/-- A sequence of errands. -/
def Steps : World × Multiset Errand → World × Multiset Errand → Prop :=
  ReflTransGen Step

/-- Two errands can be run in either order. -/
theorem Step.diamond {a b c : World × Multiset Errand} (hb : Step a b) (hc : Step a c) :
    ∃ d, ReflGen Step b d ∧ ReflTransGen Step c d := by
  obtain @⟨w, x, xs, hs⟩ := hb
  generalize ha : (w, x ::ₘ xs) = a at hc
  obtain @⟨w', y, ys, -⟩ := hc
  rw [Prod.mk.injEq] at ha
  obtain ⟨rfl, hbag⟩ := ha
  rcases Multiset.cons_eq_cons.mp hbag with ⟨rfl, rfl⟩ | ⟨hxy, rest, rfl, rfl⟩
  · exact ⟨_, .refl, .refl⟩
  · -- what is left is run next on either side
    have hrun := World.run_comm hs hxy
    have hx := World.sequel_run hs hxy
    have hy := World.sequel_run hs (Ne.symm hxy)
    have hafter : Step (w.run x, (w.sequel x : Multiset Errand) + y ::ₘ rest)
        ((w.run x).run y, ((w.run x).sequel y : Multiset Errand) + (w.sequel x + rest)) := by
      rw [Multiset.add_cons]
      exact .run (hs.run x)
    have hafter' : Step (w.run y, (w.sequel y : Multiset Errand) + x ::ₘ rest)
        ((w.run y).run x, ((w.run y).sequel x : Multiset Errand) + (w.sequel y + rest)) := by
      rw [Multiset.add_cons]
      exact .run (hs.run y)
    rw [hrun, hx, add_left_comm] at hafter
    rw [hy] at hafter'
    exact ⟨_, .single hafter, .single hafter'⟩

/-- However a bag of errands is worked off, the world that is left is the same. -/
theorem unique {a : World × Multiset Errand} {w w' : World} (h : Steps a (w, 0))
    (h' : Steps a (w', 0)) : w = w' := by
  have hstuck : ∀ {w : World} {b}, Steps (w, 0) b → b = (w, 0) := by
    intro w b hb
    rcases hb.cases_head with heq | ⟨c, hstep, -⟩
    · exact heq.symm
    · generalize ha : (w, (0 : Multiset Errand)) = a at hstep
      obtain @⟨v, x, rest, -⟩ := hstep
      rw [Prod.mk.injEq] at ha
      exact absurd ha.2.symm (Multiset.cons_ne_zero)
  obtain ⟨b, hb, hb'⟩ := Relation.church_rosser (fun _ _ _ => Step.diamond) h h'
  have heq := (hstuck hb).symm.trans (hstuck hb')
  rw [Prod.mk.injEq] at heq
  exact heq.1

theorem Steps.trans {a b c : World × Multiset Errand} (h : Steps a b) (h' : Steps b c) :
    Steps a c :=
  ReflTransGen.trans h h'

end Errands

end HybridHeap
