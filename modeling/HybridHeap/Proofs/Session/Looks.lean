import HybridHeap.Proofs.Session.Scoping
import HybridHeap.Proofs.World.Neutral

/-!
Looking at what is there. Every way to look takes a new root, and dropping that root again
undoes it: no heap changes, unless the drop finds a threshold exceeded, and then what was
looked at survives the collection because it is held by whoever looked.
-/

namespace HybridHeap

namespace World

/-- The ways to obtain a root of something that there is: from a handle, from a position of
the cell of a handle, from a slot, and from a name in an environment. -/
inductive Look
  | clone (h : Handle)
  | get (h : Handle) (p : Position)
  | slot (t : Slot)
  | lookup (e : EnvId) (name : String)

/-- The new root, if there is what is looked for. -/
def look (w : World) : Look → Option (World × Handle)
  | .clone h => some (w.clone h)
  | .get h p =>
    match w.get h p with
    | (w, .ok h) => some (w, h)
    | (_, .error _) => none
  | .slot t => some (w.root t)
  | .lookup e name =>
    match w.lookup e name with
    | (w, some h) => some (w, h)
    | (_, none) => none

/-- By looking so, whoever holds `held` finds the reference `t`: a handle held, a field or an
element of its cell, any slot of its cell, a slot of a value held, or a binding that a scope
held resolves. -/
inductive Refers (w : World) (held : List Holding) : Look → Slot → Prop
  | handle {h : Handle} (ho : Owned held h) : Refers w held (.clone h) h.target
  | position {h : Handle} {c : CellId} {p : Position} {t : Slot} (ho : Owned held h)
      (hc : h.target = some c) (hg : (w.readCell c).get p = .ok t) : Refers w held (.get h p) t
  | slot {h : Handle} {t : Slot} (ho : Owned held h) (ht : t ∈ (w.read h).children) :
      Refers w held (.slot t) t
  | kept {v : Value Handle} {t : Slot} (hv : v.holdings ⊆ held) (ht : t ∈ v.placed.children) :
      Refers w held (.slot t) t
  | binding {e s : EnvId} {name : String} {x : Handle} (he : .share e ∈ held)
      (hr : w.Resolves name e s x) : Refers w held (.lookup e name) x.target

/-- What a world has become when a new root for `t` was dropped again: nothing but the ticket
of that root is gone, and nothing at all if `t` is null. Only if the heap checks its threshold
and has exceeded it, the world is as after the collection that this triggers, and what was
looked at is still there. -/
structure Neutral (w : World) (t : Slot) (w' : World) : Prop where
  null : t = none → w' = w
  live : ∀ c ∈ t, w.Live c ∧ w'.Live c ∧ w'.readCell c = w.readCell c
  quiet : ∀ c ∈ t, ∀ h, w.heap? c.heap = some h →
    h.config.collectOnRelease = false ∨ h.objects.length ≤ h.capacity →
      w' = w.skipTicket c.heap
  triggered : ∀ c ∈ t, ∀ h, w.heap? c.heap = some h →
    h.config.collectOnRelease = true → h.capacity < h.objects.length →
      w' = (w.trigger c.heap).skipTicket c.heap

variable {w : World} {held : List Holding} {a : Look} {t : Slot} {c : CellId}

theorem Resolves.leads {name : String} {e s : EnvId} {x : Handle} (hr : w.Resolves name e s x) :
    w.Leads (.scope e) (.scope s) := by
  induction hr with
  | here => exact .refl
  | outer he _ hp _ ih => exact .head (.parent he hp) ih

namespace Balanced

/-- A slot of the cell of a handle held is an edge from something held. -/
theorem leads_of_target (hb : w.Balanced held none) {h : Handle} {d : CellId} (ho : Owned held h)
    (hd : h.target = some d) (ht : c ∈ (w.readCell d).targets) :
    ∃ n ∈ held.map Holding.node, w.Leads n (.cell c) := by
  obtain ⟨r, rfl, rfl⟩ := Option.map_eq_some_iff.mp hd
  have hr : .root r ∈ held := ho r rfl
  obtain ⟨h, hi, cell, hf⟩ := hb.live hr
  have hread : w.readCell r.cell = cell.value := by
    simp only [readCell, hi, Heap.read, hf]
  rw [hread] at ht
  exact ⟨.cell r.cell, List.mem_map_of_mem hr, .single (.slot hi hf ht)⟩

/-- What can be looked at is held or reached from something that is. -/
theorem leads_of_refers (hb : w.Balanced held none) (hr : w.Refers held a t) (hc : t = some c) :
    ∃ n ∈ held.map Holding.node, w.Leads n (.cell c) := by
  cases hr with
  | @handle h ho =>
      obtain ⟨r, rfl, rfl⟩ := Option.map_eq_some_iff.mp hc
      exact ⟨.cell r.cell, List.mem_map_of_mem (ho r rfl), .refl⟩
  | position ho hd hg => exact hb.leads_of_target ho hd (mem_targets_of_get (hc ▸ hg))
  | @slot h _ ho ht =>
      cases hd : h.target with
      | none =>
          rw [World.read, hd] at ht
          cases ht
      | some d =>
          rw [World.read, hd] at ht
          exact hb.leads_of_target ho hd (List.mem_filterMap.mpr ⟨t, ht, hc⟩)
  | @kept v _ hv ht =>
      rw [Value.placed, Value.children_map, List.mem_map] at ht
      obtain ⟨x, hx, rfl⟩ := ht
      obtain ⟨r, rfl, rfl⟩ := Option.map_eq_some_iff.mp hc
      have hanchor : r ∈ v.anchors := List.mem_filterMap.mpr ⟨some r, hx, rfl⟩
      have hr : .root r ∈ held := hv (List.mem_append_left _ (List.mem_map_of_mem hanchor))
      exact ⟨.cell r.cell, List.mem_map_of_mem hr, .refl⟩
  | @binding e s name x he hr =>
      obtain ⟨r, rfl, rfl⟩ := Option.map_eq_some_iff.mp hc
      obtain ⟨env, hs, hx⟩ := hr.binding
      have hbound : r ∈ env.roots := Environment.mem_roots.mpr ⟨name, hx⟩
      exact ⟨.scope e, List.mem_map_of_mem he, hr.leads.tail (.bound hs hbound)⟩

/-- Every way to look comes down to a new root for the reference that is found. -/
theorem look_of_refers (hb : w.Balanced held none) (hr : w.Refers held a t) :
    w.look a = some (w.root t) := by
  cases hr with
  | handle => rfl
  | position ho hc hg => simp only [look, World.get, hc, hg]
  | slot => rfl
  | kept => rfl
  | binding he hr =>
      simp only [look, hb.lookup_of_resolves hr]
      rfl

/-- A root for something that can be looked at is taken and dropped again. -/
theorem neutral_root (hb : w.Balanced held none) (hr : w.Refers held a t) :
    w.Neutral t ((w.root t).1.drop (w.root t).2) := by
  have halive : ∀ c, t = some c → w.Live c := by
    intro c hc
    obtain ⟨n, hn, hleads⟩ := hb.leads_of_refers hr hc
    exact hb.alive_of_leads (Keeps.refl w) (hb.alive_of_held hn) hleads
  obtain ⟨-, hb₁, hkeeps₁, -⟩ := hb.root halive
  obtain ⟨hshrinks, hb'⟩ := hb₁.shrinks_drop
  have hkeeps : ∀ n, w.Keeps ((w.root t).1.drop (w.root t).2) n :=
    fun n => (hkeeps₁ n).trans (hshrinks.keeps n)
  constructor
  case null =>
    rintro rfl
    exact settle_nil w
  case live =>
    intro c hc
    -- it is reached from something that is still held
    obtain ⟨n, hn, hleads⟩ := hb.leads_of_refers hr hc
    have hlive : ((w.root t).1.drop (w.root t).2).Live c :=
      hb'.alive_of_leads hkeeps (hb'.alive_of_held hn) hleads
    exact ⟨halive c hc, hlive, (hkeeps (.cell c)).readCell_eq hlive⟩
  case quiet =>
    rintro c rfl h hi hquiet
    rw [hb.drop_root hi ((halive c rfl).on_heap rfl hi), if_neg]
    rintro ⟨hon, hover⟩
    rcases hquiet with hoff | hwithin
    · exact Bool.false_ne_true (hoff.symm.trans hon)
    · exact Nat.not_lt.mpr hwithin hover
  case triggered =>
    rintro c rfl h hi hon hover
    rw [hb.drop_root hi ((halive c rfl).on_heap rfl hi), if_pos ⟨hon, hover⟩]

end Balanced

/-- Whatever can be looked at is found, and letting go of it again is neutral. -/
theorem look_neutral (hm : Moment.Reachable ⟨w, held, none⟩) (hr : w.Refers held a t) :
    ∃ w' h, w.look a = some (w', h) ∧ h.target = t ∧ w.Neutral t (w'.drop h) := by
  have hb : w.Balanced held none := hm.balanced
  have hneutral := hb.neutral_root hr
  have hlive : ∀ c ∈ t, w.Live c := fun c hc => (hneutral.live c hc).1
  exact ⟨_, _, hb.look_of_refers hr, (hb.root hlive).1, hneutral⟩

/-- A heap that is over its threshold since the last allocation: a pair that refers to itself
was dropped before, and another pair, which is in a register, refers to an integer. -/
def overfull : Session :=
  let config : Config := { initialCapacity := 1, collectOnAllocate := false }
  let ops : List Op :=
    [.allocate (.pair .null .null) false (some "q"),
      .write "q" .second "q",
      .drop "q",
      .allocate (.pair (.fresh (.scalar (.integer 7))) .null) false (some "p")]
  ops.foldl (fun s op => (s.performOp 1 op).1) (.new [.own config])

theorem overfull_reachable : overfull.Reachable :=
  .foldl (.new _ _) 1 _

/-- Looking at the first of the pair ends with a collection, which frees the other pair. -/
theorem look_neutral_overfull :
    let w := overfull.world
    let c : CellId := { heap := 1, number := 1 }
    (w.heap? 1).map (·.objects.length) = some 3 ∧
      ((w.trigger 1).heap? 1).map (·.objects.length) = some 2 ∧
      ∃ w' h, w.look (.get (overfull.handle "p") .first) = some (w', h) ∧
        h.target = some c ∧ w.Neutral (some c) (w'.drop h) := by
  intro w c
  have hheld : overfull.holdings = (overfull.handle "p").holdings ++ [] := by
    cbv
  have howned : Owned overfull.holdings (overfull.handle "p") :=
    hheld ▸ owned_holdings _ []
  have hpair : (overfull.handle "p").target = some { heap := 1, number := 2 } := by
    cbv
  have hfirst : (w.readCell { heap := 1, number := 2 }).get .first = .ok (some c) := by
    unfold w c
    cbv
  refine ⟨?_, ?_, look_neutral overfull_reachable.moment (.position howned hpair hfirst)⟩
  · unfold w
    cbv
  · unfold w
    cbv

end World

end HybridHeap
