import HybridHeap.Proofs.Mirror.Resolve

/-!
What the answers of a script show, on a world and on a store: texts, infos, values and
graphs of cells. After an answer the registers own everything again.
-/

namespace HybridHeap

open Unmanaged (Store)

/-- What an environment shows is what its scope shows. -/
theorem print_bare (env : Environment) : env.bare.print = env.print := by
  have hkeys : env.bare.bindings.keys = env.bindings.keys := by
    rw [bare_bindings, Std.ExtTreeMap.keys_map]
  unfold Unmanaged.Scope.print Environment.print
  rw [hkeys, bare_parent]

/-- Two walks over the same cells visit the same, as long as they agree on cells that
only refer to each other. -/
theorem preorder_eq {cells : Std.ExtTreeMap CellId (Linked CellId Cell)}
    {cells' : Std.ExtTreeMap CellId (Value Slot)} {R : CellId → Prop}
    (hsame : ∀ c : CellId, R c →
      cells'[c]? = (cells[c]?).map fun e : Linked CellId Cell => e.item.value)
    (hclosed : ∀ (c : CellId) (e : Linked CellId Cell), cells[c]? = some e → R c →
      ∀ d ∈ e.item.value.targets, R d)
    {stack : List CellId} (hstack : ∀ c ∈ stack, R c) :
    preorder cells stack = Unmanaged.preorder cells' stack := by
  fun_induction HybridHeap.preorder cells stack generalizing cells' with
  | case1 => rw [Unmanaged.preorder]
  | case2 cells c stack hc ih =>
      have hc' : cells'[c]? = none := by
        rw [hsame c (hstack c List.mem_cons_self), hc]
        rfl
      rw [Unmanaged.preorder]
      split
      · exact ih hsame hclosed fun d hd => hstack d (List.mem_cons_of_mem c hd)
      · rename_i v hv
        rw [hc'] at hv
        cases hv
  | case3 cells c stack e hc ih =>
      have hRc := hstack c List.mem_cons_self
      have hc' : cells'[c]? = some e.item.value := by
        rw [hsame c hRc, hc]
        rfl
      rw [Unmanaged.preorder]
      split
      · rename_i hv
        rw [hc'] at hv
        cases hv
      · rename_i v hv
        rw [hc', Option.some.injEq] at hv
        subst hv
        rw [ih]
        -- what was visited is gone from both
        · intro d hd
          rw [Std.ExtTreeMap.getElem?_erase, Std.ExtTreeMap.getElem?_erase, hsame d hd]
          split <;> rfl
        · intro d e' he' hd
          rw [Std.ExtTreeMap.getElem?_erase] at he'
          split at he'
          · cases he'
          · exact hclosed d e' he' hd
        · intro d hd
          rcases List.mem_append.mp hd with hd | hd
          · exact hclosed c e hc hRc d hd
          · exact hstack d (List.mem_cons_of_mem c hd)

namespace Mirrored

variable {w : World} {st : Store} {held : List Holding}

/-- Following slots from a live cell. -/
theorem reachable (hm : Mirrored ⟨w, held, none⟩ st) {c : CellId} {h : Heap}
    (hi : w.heap? c.heap = some h) (hl : h.Live c) :
    h.reachable c = Unmanaged.preorder st.cells [c] := by
  have hcounted := (hm.balanced.heap _ h hi).counted
  refine preorder_eq (R := h.Live) ?_ ?_ fun d hd => List.mem_singleton.mp hd ▸ hl
  · rintro d ⟨cell, hf⟩
    rw [hm.agrees.cells _ h hi _ (mem_contents_of_find? hcounted.sound hf)]
    obtain ⟨e, he, rfl⟩ := Option.map_eq_some_iff.mp hf
    rw [he]
    rfl
  · intro d e he _ x hx
    have hf : h.find? d = some e.item := by
      rw [Heap.find?, LinkedMap.find?, he]
      rfl
    exact hcounted.live_of_target hf hx

theorem printEnv (hm : Mirrored ⟨w, held, none⟩ st) {e : EnvId}
    (he : ∃ env, w.envs[e]? = some env) : w.printEnv e = st.printScope e := by
  obtain ⟨env, he⟩ := he
  rw [World.printEnv, he, Store.printScope, hm.agrees.scopes e env he]
  exact (print_bare env).symm

theorem scopeInfo (hm : Mirrored ⟨w, held, none⟩ st) {e : EnvId}
    (he : ∃ env, w.envs[e]? = some env) (name : String) :
    w.scopeInfo e name = st.scopeInfo e name := by
  obtain ⟨env, he⟩ := he
  rw [World.scopeInfo, he, Store.scopeInfo, hm.agrees.scopes e env he]
  simp only [print_bare, contains_bare, bare_parent]
  rw [bare_bindings, Std.ExtTreeMap.size_map]

/-- What a readable value refers to is alive. -/
theorem live_of_mem_children (hm : Mirrored ⟨w, held, none⟩ st) {s t : Slot}
    (hl : ∀ c ∈ s, w.Live c) (ht : t ∈ (w.readSlot s).children) : ∀ c ∈ t, w.Live c := by
  intro c hc
  cases s with
  | none => cases ht
  | some d =>
      apply hm.live_of_child (hl d rfl)
      exact List.mem_filterMap.mpr ⟨t, ht, hc⟩

end Mirrored

namespace Session

variable {s : Session} {extra : List Holding} {st : Store} {h : Handle} {i : HeapId}

/-- Sessions that own what their registers hold, with answers that look the same. -/
def Answers (p : Session × Answer) (q : Unmanaged.Session × Answer) : Prop :=
  ∃ st, q = (p.1.bare st, p.2.visible) ∧ p.1.Mirrors [] st

theorem Mirrors.answers (hm : s.Mirrors [] st) {a b : Answer} (h : a.visible = b) :
    Answers (s, a) (s.bare st, b) :=
  ⟨st, by rw [h], hm⟩

theorem Mirrors.given (hm : s.Mirrors extra st) (ho : Owned (extra ++ s.holdings) h) :
    (s.bare st).given h.target = s.given h := by
  rw [Session.given, Mirrored.read hm ho]
  rfl

theorem Mirrors.view (hm : s.Mirrors extra st) {v : Value Slot}
    (hv : ∀ e ∈ v.env?, ∃ env, s.world.envs[e]? = some env) : (s.bare st).view v = s.view v := by
  have hscope : v.env?.map st.printScope = v.env?.map s.world.printEnv := by
    cases he : v.env? with
    | none => rfl
    | some e => exact congrArg some (Mirrored.printEnv hm (hv e he)).symm
  exact congrArg (View.mk v) hscope

theorem Mirrors.give (hm : s.Mirrors (h.holdings ++ []) st) (dest : Option String) :
    Answers (s.give dest h) ((s.bare st).give dest h.target) := by
  have ho : Owned ((h.holdings ++ []) ++ s.holdings) h := by
    rw [List.append_assoc]
    exact owned_holdings h _
  obtain ⟨hstore, hm'⟩ := hm.store dest
  rw [Session.give, Unmanaged.Session.give, hstore, hm.given ho]
  exact hm'.answers rfl

theorem answers_giveOutcome {p : Session × Except Failure Handle}
    {q : Unmanaged.Session × Except Failure Slot} (hy : YieldsHandle [] p q)
    (dest : Option String) :
    Answers (giveOutcome dest p) (Unmanaged.Session.giveOutcome dest q) := by
  cases hy with
  | ok hm => exact hm.give dest
  | error hm => exact hm.answers rfl

theorem answers_doneOutcome {p : Session × Except Failure Unit}
    {q : Unmanaged.Session × Except Failure Unit}
    (hy : Yields (fun _ => []) id [] p q) :
    Answers (doneOutcome p) (Unmanaged.Session.doneOutcome q) := by
  cases hy with
  | ok hm => exact hm.answers rfl
  | error hm => exact hm.answers rfl

theorem Mirrors.withOperand {f : Session → Handle → Session × Answer}
    {g : Unmanaged.Session → Slot → Unmanaged.Session × Answer} (hm : s.Mirrors [] st)
    (i : HeapId) (operand : Operand)
    (hf : ∀ {s h st}, s.Mirrors (h.holdings ++ []) st →
      Answers (f s h) (g (s.bare st) h.target)) :
    Answers (s.withOperand i operand f) ((s.bare st).withOperand i operand g) := by
  have hy := hm.resolve i operand
  unfold Session.withOperand Unmanaged.Session.withOperand
  generalize s.resolve i operand = out at hy ⊢
  generalize (s.bare st).resolve i operand = out' at hy ⊢
  cases hy with
  | ok hm' => exact hf hm'
  | error hm' => exact hm'.answers rfl

theorem Mirrors.withDraft {f : Session → Value Handle → Session × Answer}
    {g : Unmanaged.Session → Value Slot → Unmanaged.Session × Answer} (hm : s.Mirrors [] st)
    (i : HeapId) (draft : Draft)
    (hf : ∀ {s v st}, s.Mirrors (v.holdings ++ []) st →
      Answers (f s v) (g (s.bare st) v.placed)) :
    Answers (s.withDraft i draft f) ((s.bare st).withDraft i draft g) := by
  have hy := hm.build i draft
  unfold Session.withDraft Unmanaged.Session.withDraft
  generalize s.build i draft = out at hy ⊢
  generalize (s.bare st).build i draft = out' at hy ⊢
  cases hy with
  | ok hm' => exact hf hm'
  | error hm' => exact hm'.answers rfl

theorem Mirrors.live (hm : s.Mirrors [] st) (name : String) :
    ∀ c ∈ (s.handle name).target, s.world.Live c :=
  Mirrored.live_of_owned hm (s.owned_handle [] name)

theorem Mirrors.giveChild (hm : s.Mirrors [] st) (of : String) (index : Nat) (target : String)
    (dest : Option String) :
    Answers (s.giveChild of index target dest) ((s.bare st).giveChild of index target dest) := by
  unfold Session.giveChild Unmanaged.Session.giveChild
  rw [bare_slot, show (s.bare st).store = st from rfl, ← hm.read of]
  cases hc : (s.world.read (s.handle of)).children[index]? with
  | none => exact hm.answers rfl
  | some child =>
      -- the child is looked at through a root of its own, which is stored or dropped at the end
      have hlive := Mirrored.live_of_mem_children hm (hm.live of) (List.mem_of_getElem? hc)
      obtain ⟨htarget, hm₁⟩ := Mirrored.root hm hlive
      simp only [lift]
      generalize s.world.root child = out at htarget hm₁ ⊢
      obtain ⟨w, h⟩ := out
      simp only at htarget hm₁
      subst htarget
      have hm₂ : { s with world := w }.Mirrors (h.holdings ++ []) st := by
        unfold Mirrors
        rw [List.append_assoc]
        exact hm₁
      have ho : Owned ((h.holdings ++ []) ++ s.holdings) h := by
        rw [List.append_assoc]
        exact owned_holdings h _
      have hgiven := hm₂.given ho
      have hlive' := Mirrored.live_of_owned hm₂ ho
      have hread := hm₂.agrees.readSlot hm₂.balanced hlive'
      have hview := hm₂.view (Mirrored.env_of_read hm₂ hlive')
      obtain ⟨hstore, hm₃⟩ := hm₂.store dest
      refine ⟨st, ?_, hm₃⟩
      rw [← hstore, bare_slot, ← hread]
      show _ = (_, Answer.slot ({ s with world := w }.given h) _
        ({ s with world := w }.view (w.readSlot h.target)))
      rw [← hgiven, ← hview]
      rfl

theorem Mirrors.graph (hm : s.Mirrors [] st) (of : String) :
    s.graph of = (s.bare st).graph of := by
  unfold Session.graph Unmanaged.Session.graph
  rw [bare_slot]
  cases hc : (s.handle of).target with
  | none => rfl
  | some c =>
      obtain ⟨heap, hi, hl⟩ := hm.live of c hc
      simp only [hi, Option.map_some, Option.getD_some]
      exact Mirrored.reachable hm hi hl

theorem Mirrors.element (hm : s.Mirrors [] st) (of : String) (index : Nat) :
    s.element of index = (s.bare st).element of index := by
  unfold Session.element Unmanaged.Session.element
  rw [bare_slot, hm.read of]
  rfl

/-- Only the count of references is missing. -/
theorem Mirrors.handleInfo (hm : s.Mirrors [] st) (of : String) :
    (s.bare st).handleInfo of = { s.handleInfo of with refCount := none } := by
  have hread := hm.read of
  unfold Session.handleInfo Unmanaged.Session.handleInfo
  rw [bare_slot]
  simp only [hread]
  cases s.handle of <;> rfl

/-- A heap between operations shows its configuration and no phase. -/
theorem Mirrors.heapInfo (hm : s.Mirrors [] st) (i : HeapId) :
    (s.bare st).heapInfo i = { s.heapInfo i with live := 0, capacity := 0 } := by
  have hconfig : ((s.world.heap? i).getD default).config = (st.configs[i]?).getD default := by
    rw [← hm.agrees.configs, Array.getElem?_map]
    show _ = ((s.world.heap? i).map Heap.config).getD default
    cases s.world.heap? i <;> rfl
  have hphase : ((s.world.heap? i).getD default).phase = .idle := by
    cases hi : s.world.heap? i with
    | none => rfl
    | some h => exact (hm.balanced.heap i h hi).listed.idle
  generalize hh : (s.world.heap? i).getD default = h at hconfig hphase
  have htext : h.print = "Heap \x7b config: " ++ h.config.print ++ ", phase: " ++
      Phase.idle.label ++ ", .. \x7d" := by
    unfold Heap.print
    rw [hphase]
  rw [Unmanaged.Session.heapInfo, Session.heapInfo, hh, htext, hphase, hconfig]
  rfl

end Session

end HybridHeap
