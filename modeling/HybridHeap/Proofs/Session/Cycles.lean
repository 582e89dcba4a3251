import Mathlib.Data.List.Permutation
import HybridHeap.Proofs.Session.Reachable
import HybridHeap.Proofs.World.Shrink

/-!
Only cycles leave garbage behind. Between operations every live cell is reached from what
the script owns or from a cycle, so that without cycles the counts alone free everything:
no collection sweeps anything, and once the script has dropped what it owns nothing is
left.
-/

namespace HybridHeap

/-- Everything that was in `w` is gone, and nothing of it was swept: no heap has a cell or
a root left, and there are no environments. -/
structure World.Emptied (w w' : World) : Prop where
  heaps : ∀ i h, w.heap? i = some h → ∃ h', w'.heap? i = some h' ∧ h'.objects.toList = [] ∧
    h'.roots.toList = [] ∧ h'.counters.swept = h.counters.swept
  envs : w'.envs = ∅

/-- Where nothing is owned from outside and there is no cycle, there is nothing. -/
theorem World.Balanced.emptied {w w' : World} (hb : w'.Balanced [] none)
    (ha : ∀ n, ¬w.OnCycle n) (hs : w.Shrinks w') : w.Emptied w' := by
  have hdead : ∀ n, ¬w'.Alive n := by
    intro n hn
    obtain ⟨m, hm, -⟩ := hb.leads_of_alive hn
    rcases hm with hm | hm
    · cases hm
    · exact hs.acyclic ha m hm
  have henv : ∀ e : EnvId, w'.envs[e]? = none := by
    intro e
    cases he : w'.envs[e]? with
    | none => rfl
    | some env => exact absurd ⟨env, he⟩ (hdead (.scope e))
  have hbound : w'.bound = [] := by
    refine List.eq_nil_iff_forall_not_mem.mpr fun r hr => ?_
    obtain ⟨e, env, he, -⟩ := mem_bound.mp hr
    exact hdead (.scope e) ⟨env, he⟩
  constructor
  · intro i h hi
    obtain ⟨h', hi', hswept⟩ := hs.unswept ha i h hi
    have hheap := hb.heap i h' hi'
    refine ⟨h', hi', ?_, ?_, hswept⟩
    · refine List.eq_nil_iff_forall_not_mem.mpr fun p hp => ?_
      obtain ⟨hhome, hf⟩ := hb.heap?_of_mem hi' hp
      exact hdead (.cell p.1) ⟨h', hhome, p.2, hf⟩
    · have hroots := hheap.listed.roots
      rw [hbound] at hroots
      exact hroots.eq_nil
  · apply Std.ExtTreeMap.ext_getElem?
    intro e
    rw [henv, Std.ExtTreeMap.getElem?_empty]

namespace Session

/-- What the script owns: the targets of its registers, of the slots of its values off the
heaps and the environments of closures among these, and the environments in its
registers. -/
inductive Owns (s : Session) : Node → Prop
  | register {name : String} {h : Handle} {c : CellId} (hn : s.registers[name]? = some h)
      (hc : h.target = some c) : Owns s (.cell c)
  | keptSlot {name : String} {v : Value Handle} {h : Handle} {c : CellId}
      (hn : s.held[name]? = some v) (hh : h ∈ v.children) (hc : h.target = some c) :
      Owns s (.cell c)
  | keptScope {name : String} {v : Value Handle} {e : EnvId} (hn : s.held[name]? = some v)
      (he : v.env? = some e) : Owns s (.scope e)
  | scope {name : String} {e : EnvId} (hn : s.scopes[name]? = some e) : Owns s (.scope e)

variable {s : Session}

theorem owns_of_mem {n : Node} (hn : n ∈ s.holdings.map Holding.node) : s.Owns n := by
  obtain ⟨x, hx, rfl⟩ := List.mem_map.mp hn
  rcases List.mem_append.mp hx with hx | hx
  · obtain ⟨h, hh, hx⟩ := List.mem_flatMap.mp hx
    obtain ⟨name, hname⟩ := mem_values_iff.mp hh
    obtain ⟨r, hr, rfl⟩ := List.mem_map.mp hx
    exact .register hname (congrArg (Option.map Root.cell) (Option.mem_toList.mp hr))
  · rcases List.mem_append.mp hx with hx | hx
    · obtain ⟨v, hv, hx⟩ := List.mem_flatMap.mp hx
      obtain ⟨name, hname⟩ := mem_values_iff.mp hv
      rcases List.mem_append.mp hx with hx | hx
      · obtain ⟨r, hr, rfl⟩ := List.mem_map.mp hx
        obtain ⟨h, hh, hr⟩ := List.mem_filterMap.mp hr
        exact .keptSlot hname hh (congrArg (Option.map Root.cell) hr)
      · obtain ⟨e, he, rfl⟩ := List.mem_map.mp hx
        exact .keptScope hname (Option.mem_toList.mp he)
    · obtain ⟨e, he, hx⟩ := List.mem_flatMap.mp hx
      obtain ⟨name, hname⟩ := mem_values_iff.mp he
      rw [List.mem_singleton.mp hx]
      exact .scope hname

/-- Every live cell is reached from what the script owns or from a cycle. -/
theorem Reachable.leads_of_live (hs : s.Reachable) {c : CellId} (hl : s.world.Live c) :
    ∃ n, (s.Owns n ∨ s.world.OnCycle n) ∧ s.world.Leads n (.cell c) := by
  obtain ⟨n, hn, hpath⟩ := hs.moment.balanced.leads_of_alive (n := .cell c) hl
  exact ⟨n, hn.imp owns_of_mem id, hpath⟩

/-- Without cycles nothing is left once everything owned is dropped, in whatever order. -/
theorem Reachable.emptied (hs : s.Reachable) (ha : ∀ n, ¬s.world.OnCycle n)
    {chores : List Chore} (hp : (chores.map Chore.holding).Perm s.holdings) :
    s.world.Emptied (s.world.settle chores) := by
  have hm : Moment.Reachable ⟨s.world, chores.map Chore.holding ++ [], none⟩ := by
    rw [List.append_nil]
    exact hs.moment.step (.permute hp.symm)
  exact World.Balanced.emptied hm.settle.balanced ha (World.Balanced.shrinks_settle hm.balanced)

/-- What counting leaves to the collector. Every live cell is reached from what the script
owns or from a cycle; a collection that finds no cycle of slots, at whatever moment and
however it is started, sweeps nothing; and without any cycle, dropping what the script
owns empties all heaps, in whatever order that is done and whatever their triggers are. -/
structure OnlyCyclesRemain (s : Session) : Prop where
  reached : ∀ c, s.world.Live c →
    ∃ n, (s.Owns n ∨ s.world.OnCycle n) ∧ s.world.Leads n (.cell c)
  unswept : ∀ m before after, Moment.Reachable m → Moment.Collection m before after →
    before.heap.Acyclic → before.Spares after
  dropped : (∀ n, ¬s.world.OnCycle n) → ∀ chores : List Chore,
    (chores.map Chore.holding).Perm s.holdings → s.world.Emptied (s.world.settle chores)
  droppedAll : (∀ n, ¬s.world.OnCycle n) → s.world.Emptied s.dropEverything.world

theorem only_cycles_remain (hs : s.Reachable) : s.OnlyCyclesRemain where
  reached _ hl := hs.leads_of_live hl
  unswept _ _ _ hm hc ha := hc.spares hm ha
  dropped ha _ hp := hs.emptied ha hp
  droppedAll ha := by
    rw [dropEverything_world]
    exact hs.emptied ha s.holdings_estate

/-- A pair that refers to itself outlives its register. -/
theorem only_cycles_remain_loop :
    let s := (([.allocate (.pair .null .null) false (some "p"), .write "p" .first "p",
      .drop "p"] : List Op).foldl (fun s op => (s.performOp 1 op).1) (new []))
    s.objects 1 = [{ cell := ⟨1, 0⟩, count := 1, kind := .pair }] ∧ s.OnlyCyclesRemain := by
  refine ⟨?_, only_cycles_remain (.op (.op (.op (.new [] _) 1 _) 1 _) 1 _)⟩
  cbv

end Session

end HybridHeap
