import HybridHeap.Proofs.World.Muted

/-!
Two sessions that differ only in whether drops of roots check the thresholds. As long as no
drop could start a collection, every operation does the same to both and answers the same,
up to a reported tuning.
-/

namespace HybridHeap

open World (MutesOutcome)

/-- What is reported about a heap, up to the trigger of drops in its tuning. -/
structure HeapInfo.Alike (a b : HeapInfo) : Prop where
  configs : { a.config with collectOnRelease := false } =
    { b.config with collectOnRelease := false }
  phase : a.phase = b.phase
  live : a.live = b.live
  capacity : a.capacity = b.capacity
  sameAsFirst : a.sameAsFirst = b.sameAsFirst
  texts : a.text = { (default : Heap) with config := a.config, phase := a.phase }.print ∧
    b.text = { (default : Heap) with config := b.config, phase := b.phase }.print

/-- Answers that only differ in a reported tuning. -/
inductive Answer.Alike : Answer → Answer → Prop
  | same (a : Answer) : Alike a a
  | heap {a b : HeapInfo} (h : a.Alike b) : Alike (.heap a) (.heap b)

namespace Answer.Alike

theorem symm {a b : Answer} (h : a.Alike b) : b.Alike a := by
  cases h with
  | same => exact .same a
  | heap h =>
      exact .heap ⟨h.configs.symm, h.phase.symm, h.live.symm, h.capacity.symm,
        h.sameAsFirst.symm, h.texts.symm⟩

theorem trans {a b c : Answer} (h : a.Alike b) (h' : b.Alike c) : a.Alike c := by
  cases h with
  | same => exact h'
  | heap h =>
      cases h' with
      | same => exact .heap h
      | heap h' =>
          exact .heap ⟨h.configs.trans h'.configs, h.phase.trans h'.phase, h.live.trans h'.live,
            h.capacity.trans h'.capacity, h.sameAsFirst.trans h'.sameAsFirst,
            h.texts.1, h'.texts.2⟩

end Answer.Alike

namespace Session

/-- The session with the same contents in which drops of roots do not check thresholds. -/
def muted (s : Session) : Session :=
  { s with world := s.world.muted }

/-- `s'` is `s` with the triggers of drops muted, and in `s` they would not fire. -/
structure Mutes (s s' : Session) : Prop where
  session : s' = s.muted
  guarded : s.world.Guarded

/-- Two outcomes that are the same but for the muted triggers. -/
structure MutesTo {α : Type} (out out' : Session × α) : Prop where
  sessions : out.1.Mutes out'.1
  outcome : out'.2 = out.2

variable {s s' : Session}

namespace Mutes

variable {α : Type}

theorem world (hm : s.Mutes s') : s.world.Mutes s'.world :=
  ⟨by rw [hm.session, muted], hm.guarded⟩

theorem outcome (hm : s.Mutes s') (a : α) : MutesTo (s, a) (s', a) :=
  ⟨hm, rfl⟩

theorem heaps (hm : s.Mutes s') : s'.heaps = s.heaps := by
  rw [hm.session, muted]

theorem registers (hm : s.Mutes s') : s'.registers = s.registers := by
  rw [hm.session, muted]

theorem held (hm : s.Mutes s') : s'.held = s.held := by
  rw [hm.session, muted]

theorem scopes (hm : s.Mutes s') : s'.scopes = s.scopes := by
  rw [hm.session, muted]

theorem handle (hm : s.Mutes s') (name : String) : s'.handle name = s.handle name := by
  rw [Session.handle, Session.handle, hm.registers]

/-- Another world in both sessions. -/
theorem withWorld (hm : s.Mutes s') {w w' : World} (hw : w.Mutes w') :
    { s with world := w }.Mutes { s' with world := w' } := by
  obtain ⟨rfl, -⟩ := hm
  obtain ⟨rfl, hg⟩ := hw
  exact ⟨rfl, hg⟩

/-- A change of the registers of both sessions. -/
theorem change (hm : s.Mutes s') {f : Session → Session} (hf : f s.muted = (f s).muted)
    (hw : (f s).world = s.world) : (f s).Mutes (f s') := by
  obtain ⟨rfl, hg⟩ := hm
  exact ⟨hf, hw ▸ hg⟩

theorem lift (hm : s.Mutes s') {out out' : World × α} (ho : MutesOutcome out out') :
    MutesTo (s.lift out) (s'.lift out') :=
  ⟨hm.withWorld ho.worlds, ho.outcome⟩

section Registers

theorem take (hm : s.Mutes s') (name : String) : MutesTo (s.take name) (s'.take name) :=
  ⟨hm.change (f := fun s => (s.take name).1) rfl rfl, hm.handle name⟩

theorem store (hm : s.Mutes s') (dest : Option String) (h : Handle) :
    (s.store dest h).Mutes (s'.store dest h) := by
  cases dest with
  | none => exact hm.withWorld (hm.world.drop h)
  | some name =>
      simp only [Session.store, hm.handle]
      exact (hm.change (f := fun s => { s with registers := s.registers.insert name h })
        rfl rfl).withWorld (hm.world.drop _)

theorem storeScope (hm : s.Mutes s') (dest : Option String) (e : EnvId) :
    (s.storeScope dest e).Mutes (s'.storeScope dest e) := by
  cases dest with
  | none => exact hm.withWorld (hm.world.settle _)
  | some name =>
      have hset := hm.change (f := fun s => { s with scopes := s.scopes.insert name e }) rfl rfl
      simp only [Session.storeScope, hm.scopes] at hset ⊢
      split
      · exact hset
      · exact hset.withWorld (hm.world.settle _)

theorem withScope (hm : s.Mutes s') (name : String) (handed : List Handle)
    {f f' : EnvId → Session × Answer} (hf : ∀ e, MutesTo (f e) (f' e)) :
    MutesTo (s.withScope name handed f) (s'.withScope name handed f') := by
  unfold Session.withScope
  rw [hm.scopes]
  cases s.scopes[name]? with
  | none => exact (hm.withWorld (hm.world.settle _)).outcome _
  | some e => exact hf e

theorem withParent (hm : s.Mutes s') (parent : Option String) (handed : List Handle)
    {f f' : Option EnvId → Session × Answer} (hf : ∀ p, MutesTo (f p) (f' p)) :
    MutesTo (s.withParent parent handed f) (s'.withParent parent handed f') := by
  cases parent with
  | none => exact hf none
  | some name => exact hm.withScope name handed fun e => hf (some e)

theorem giveScope (hm : s.Mutes s') (dest : String) (e : Option EnvId) :
    MutesTo (s.giveScope dest e) (s'.giveScope dest e) := by
  cases e with
  | none => exact hm.outcome _
  | some e => exact ((hm.withWorld (hm.world.shareEnv e)).storeScope _ e).outcome _

theorem given (hm : s.Mutes s') (h : Handle) : s'.given h = s.given h := by
  rw [Session.given, Session.given, hm.world.read]

theorem printEnv (hm : s.Mutes s') : s'.world.printEnv = s.world.printEnv := by
  funext e
  rw [World.printEnv, World.printEnv, hm.world.envs]

theorem view (hm : s.Mutes s') (v : Value Slot) : s'.view v = s.view v := by
  rw [Session.view, Session.view, hm.printEnv]

theorem give (hm : s.Mutes s') (dest : Option String) (h : Handle) :
    MutesTo (s.give dest h) (s'.give dest h) :=
  ⟨hm.store dest h, by rw [Session.give, Session.give, hm.given]⟩

end Registers

end Mutes

namespace MutesTo

/-- What follows on a handle that may not have been obtained. -/
theorem giveOutcome {out out' : Session × Except Failure Handle} (ho : MutesTo out out')
    (dest : Option String) : MutesTo (giveOutcome dest out) (giveOutcome dest out') := by
  obtain ⟨s, a⟩ := out
  obtain ⟨s', a'⟩ := out'
  obtain ⟨hm, rfl⟩ := ho
  cases a' with
  | ok h => exact hm.give dest h
  | error f => exact hm.outcome _

theorem doneOutcome {out out' : Session × Except Failure Unit} (ho : MutesTo out out') :
    MutesTo (doneOutcome out) (doneOutcome out') := by
  obtain ⟨s, a⟩ := out
  obtain ⟨s', a'⟩ := out'
  obtain ⟨hm, rfl⟩ := ho
  cases a' with
  | ok u => exact hm.outcome _
  | error f => exact hm.outcome _

/-- A scope that was obtained alike is kept and shown alike. -/
theorem boundOutcome {out out' : Session × Except Failure EnvId} (ho : MutesTo out out')
    (dest : Option String) :
    MutesTo (Session.boundOutcome dest out) (Session.boundOutcome dest out') := by
  obtain ⟨s, a⟩ := out
  obtain ⟨s', a'⟩ := out'
  obtain ⟨hm, rfl⟩ := ho
  cases a' with
  | error f => exact hm.outcome _
  | ok e =>
      have hprint : Answer.text (s'.world.printEnv e) = .text (s.world.printEnv e) := by
        rw [hm.printEnv]
      exact ⟨hm.storeScope dest e, hprint⟩

end MutesTo

mutual

theorem Mutes.resolve {s s' : Session} (hm : s.Mutes s') (i : HeapId) (operand : Operand) :
    MutesTo (s.resolve i operand) (s'.resolve i operand) := by
  cases operand with
  | null =>
      rw [Session.resolve, Session.resolve]
      exact hm.outcome _
  | copy name =>
      have hclone := hm.lift (hm.world.clone (s.handle name))
      rw [Session.resolve, Session.resolve, hm.handle]
      exact ⟨hclone.sessions, congrArg Except.ok hclone.outcome⟩
  | move name =>
      have htake := hm.take name
      rw [Session.resolve, Session.resolve]
      exact ⟨htake.sessions, congrArg Except.ok htake.outcome⟩
  | fresh d =>
      have hbuild := hm.build i d
      rw [Session.resolve, Session.resolve]
      generalize s.build i d = out at hbuild ⊢
      generalize s'.build i d = out' at hbuild ⊢
      obtain ⟨s₁, a⟩ := out
      obtain ⟨s₁', a'⟩ := out'
      obtain ⟨hm₁, rfl⟩ := hbuild
      cases a' with
      | ok v => exact hm₁.lift (hm₁.world.allocate i v)
      | error f => exact hm₁.outcome _
  | list items =>
      have hall := hm.resolveAll i [] items
      rw [Session.resolve, Session.resolve]
      generalize s.resolveAll i [] items = out at hall ⊢
      generalize s'.resolveAll i [] items = out' at hall ⊢
      obtain ⟨s₁, a⟩ := out
      obtain ⟨s₁', a'⟩ := out'
      obtain ⟨hm₁, rfl⟩ := hall
      cases a' with
      | ok hs => exact hm₁.lift (hm₁.world.list i hs)
      | error f => exact hm₁.outcome _

theorem Mutes.resolveAll {s s' : Session} (hm : s.Mutes s') (i : HeapId) (done : List Handle)
    (operands : List Operand) :
    MutesTo (s.resolveAll i done operands) (s'.resolveAll i done operands) := by
  cases operands with
  | nil =>
      rw [Session.resolveAll, Session.resolveAll]
      exact hm.outcome _
  | cons operand operands =>
      have hone := hm.resolve i operand
      rw [Session.resolveAll, Session.resolveAll]
      generalize s.resolve i operand = out at hone ⊢
      generalize s'.resolve i operand = out' at hone ⊢
      obtain ⟨s₁, a⟩ := out
      obtain ⟨s₁', a'⟩ := out'
      obtain ⟨hm₁, rfl⟩ := hone
      cases a' with
      | ok h => exact hm₁.resolveAll i (h :: done) operands
      | error f => exact (hm₁.withWorld (hm₁.world.settle _)).outcome _

theorem Mutes.build {s s' : Session} (hm : s.Mutes s') (i : HeapId) (d : Draft) :
    MutesTo (s.build i d) (s'.build i d) := by
  cases d with
  | scalar v =>
      rw [Session.build, Session.build]
      exact hm.outcome _
  | pair first second =>
      have hfirst := hm.resolve i first
      rw [Session.build, Session.build]
      generalize s.resolve i first = out at hfirst ⊢
      generalize s'.resolve i first = out' at hfirst ⊢
      obtain ⟨s₁, a⟩ := out
      obtain ⟨s₁', a'⟩ := out'
      obtain ⟨hm₁, rfl⟩ := hfirst
      cases a' with
      | error f => exact hm₁.outcome _
      | ok a =>
          have hsecond := hm₁.resolve i second
          dsimp only
          generalize s₁.resolve i second = out at hsecond ⊢
          generalize s₁'.resolve i second = out' at hsecond ⊢
          obtain ⟨s₂, b⟩ := out
          obtain ⟨s₂', b'⟩ := out'
          obtain ⟨hm₂, rfl⟩ := hsecond
          cases b' with
          | error f => exact (hm₂.withWorld (hm₂.world.drop a)).outcome _
          | ok b => exact hm₂.outcome _
  | vector items =>
      have hall := hm.resolveAll i [] items
      rw [Session.build, Session.build]
      generalize s.resolveAll i [] items = out at hall ⊢
      generalize s'.resolveAll i [] items = out' at hall ⊢
      obtain ⟨s₁, a⟩ := out
      obtain ⟨s₁', a'⟩ := out'
      obtain ⟨hm₁, rfl⟩ := hall
      cases a' with
      | ok hs => exact hm₁.outcome _
      | error f => exact hm₁.outcome _
  | closure code scope =>
      rw [Session.build, Session.build, hm.scopes]
      cases s.scopes[scope]? with
      | none => exact hm.outcome _
      | some e => exact (hm.withWorld (hm.world.shareEnv e)).outcome _
  | held name =>
      rw [Session.build, Session.build, hm.held]
      have hclear := hm.change (f := fun s => { s with held := s.held.erase name }) rfl rfl
      simp only [hm.held] at hclear
      exact hclear.outcome _

end

namespace Mutes

section Operations

variable {α : Type}

theorem withOperand (hm : s.Mutes s') (i : HeapId) (operand : Operand)
    {f : Session → Handle → Session × Answer}
    (hf : ∀ {s s' : Session} h, s.Mutes s' → MutesTo (f s h) (f s' h)) :
    MutesTo (s.withOperand i operand f) (s'.withOperand i operand f) := by
  have hone := hm.resolve i operand
  unfold Session.withOperand
  generalize s.resolve i operand = out at hone ⊢
  generalize s'.resolve i operand = out' at hone ⊢
  obtain ⟨s₁, a⟩ := out
  obtain ⟨s₁', a'⟩ := out'
  obtain ⟨hm₁, rfl⟩ := hone
  cases a' with
  | ok h => exact hf h hm₁
  | error g => exact hm₁.outcome _

theorem withDraft (hm : s.Mutes s') (i : HeapId) (draft : Draft)
    {f : Session → Value Handle → Session × Answer}
    (hf : ∀ {s s' : Session} v, s.Mutes s' → MutesTo (f s v) (f s' v)) :
    MutesTo (s.withDraft i draft f) (s'.withDraft i draft f) := by
  have hbuild := hm.build i draft
  unfold Session.withDraft
  generalize s.build i draft = out at hbuild ⊢
  generalize s'.build i draft = out' at hbuild ⊢
  obtain ⟨s₁, a⟩ := out
  obtain ⟨s₁', a'⟩ := out'
  obtain ⟨hm₁, rfl⟩ := hbuild
  cases a' with
  | ok v => exact hf v hm₁
  | error g => exact hm₁.outcome _

theorem withOperands (hm : s.Mutes s') (i : HeapId) (operands : List Operand)
    {f : Session → List Handle → Session × Answer}
    (hf : ∀ {s s' : Session} hs, s.Mutes s' → MutesTo (f s hs) (f s' hs)) :
    MutesTo
      (match s.resolveAll i [] operands with
        | (s, .error failure) => (s, .failure failure)
        | (s, .ok hs) => f s hs : Session × Answer)
      (match s'.resolveAll i [] operands with
        | (s, .error failure) => (s, .failure failure)
        | (s, .ok hs) => f s hs : Session × Answer) := by
  have hall := hm.resolveAll i [] operands
  generalize s.resolveAll i [] operands = out at hall ⊢
  generalize s'.resolveAll i [] operands = out' at hall ⊢
  obtain ⟨s₁, a⟩ := out
  obtain ⟨s₁', a'⟩ := out'
  obtain ⟨hm₁, rfl⟩ := hall
  cases a' with
  | ok hs => exact hf hs hm₁
  | error g => exact hm₁.outcome _

theorem giveChild (hm : s.Mutes s') (of : String) (index : Nat) (target : String)
    (dest : Option String) :
    MutesTo (s.giveChild of index target dest) (s'.giveChild of index target dest) := by
  simp only [Session.giveChild, hm.handle, hm.world.read]
  split
  · exact hm.outcome _
  · rename_i child _
    have hroot := hm.lift (hm.world.root child)
    refine ⟨?_, ?_⟩
    · rw [hroot.outcome]
      exact hroot.sessions.store dest _
    · simp only [hroot.outcome, hroot.sessions.given, hroot.sessions.view,
        hroot.sessions.world.readSlot, hroot.sessions.handle]

theorem keep (hm : s.Mutes s') (name : String) (v : Value Handle) :
    (s.keep name v).Mutes (s'.keep name v) := by
  have hset := hm.change (f := fun s => { s with held := s.held.insert name v }) rfl rfl
  simp only [Session.keep, hm.held] at hset ⊢
  split
  · exact hset
  · exact hset.withWorld (hm.world.settle _)

theorem putChild (hm : s.Mutes s') (name : String) (index : Nat) (h : Handle) :
    MutesTo (s.putChild name index h) (s'.putChild name index h) := by
  have hset := fun v => hm.change (f := fun s => { s with held := s.held.insert name v }) rfl rfl
  simp only [Session.putChild, hm.held] at hset ⊢
  split
  · exact ((hset _).withWorld (hm.world.settle _)).outcome _
  · exact ((hset _).withWorld (hm.world.drop h)).outcome _

theorem performBind (hm : s.Mutes s') (i : HeapId) (dest : Option String)
    (params : List String) (rest : Option String) (args : List Operand)
    (parent : Option String) :
    MutesTo (s.performBind i dest params rest args parent)
      (s'.performBind i dest params rest args parent) := by
  unfold Session.performBind
  refine hm.withOperands i args fun {s s'} hs hm => ?_
  exact hm.withParent parent hs fun p =>
    (hm.lift (hm.world.bind i params rest hs p)).boundOutcome dest

theorem scopeInfo {w w' : World} (hw : w.Mutes w') (e : EnvId) (name : String) :
    w'.scopeInfo e name = w.scopeInfo e name := by
  rw [World.scopeInfo, World.scopeInfo, hw.envs]

theorem refCount {w w' : World} (hw : w.Mutes w') (h : Handle) : w'.refCount h = w.refCount h := by
  unfold World.refCount
  cases h.target with
  | none => rfl
  | some c =>
      simp only [Option.bind_eq_bind, Option.bind_some, hw.heap?]
      cases w.heap? c.heap <;> rfl

theorem stats (hm : s.Mutes s') : s'.stats = s.stats := by
  have hstats : ∀ i, (s'.world.heap? i).map Heap.stats = (s.world.heap? i).map Heap.stats := by
    intro i
    rw [hm.world.heap?, Option.map_map]
    rfl
  simp only [Session.stats, hm.heaps, hstats]

theorem objects (hm : s.Mutes s') : s'.objects = s.objects := by
  funext i
  simp only [Session.objects, hm.world.heap?]
  cases s.world.heap? i <;> rfl

theorem roots (hm : s.Mutes s') : s'.roots = s.roots := by
  funext i
  simp only [Session.roots, hm.world.heap?]
  cases s.world.heap? i <;> rfl

theorem graph (hm : s.Mutes s') (of : String) : s'.graph of = s.graph of := by
  simp only [Session.graph, hm.handle, hm.world.heap?]
  split
  · rfl
  · rename_i c _
    cases s.world.heap? c.heap <;> rfl

theorem heapInfo (hm : s.Mutes s') (i : HeapId) : (s.heapInfo i).Alike (s'.heapInfo i) := by
  have hinfo : ∀ s : Session, (s.heapInfo i).text = { (default : Heap) with
      config := (s.heapInfo i).config, phase := (s.heapInfo i).phase }.print := fun _ => rfl
  obtain ⟨rfl, -⟩ := hm
  have hheap : s.muted.world.heap? i = (s.world.heap? i).map Heap.muted := s.world.heap?_muted i
  refine ⟨?_, ?_, ?_, ?_, rfl, hinfo s, hinfo s.muted⟩
  all_goals
    simp only [Session.heapInfo, hheap]
    cases s.world.heap? i <;> rfl

end Operations

end Mutes

/-- Two outcomes of an operation, up to the muted triggers. -/
structure AnswersTo (out out' : Session × Answer) : Prop where
  sessions : out.1.Mutes out'.1
  answers : out.2.Alike out'.2

theorem MutesTo.answersTo {out out' : Session × Answer} (ho : MutesTo out out') :
    AnswersTo out out' :=
  ⟨ho.sessions, ho.outcome ▸ .same _⟩

/-- Every operation does the same, whether drops check the thresholds or not. -/
theorem Mutes.performOp (hm : s.Mutes s') (i : HeapId) (op : Op) :
    AnswersTo (s.performOp i op) (s'.performOp i op) := by
  cases op with
  | heap => exact ⟨hm, .heap (hm.heapInfo i)⟩
  | allocate value shared dest =>
      exact (hm.withDraft i value fun v hm =>
        (hm.lift (hm.world.allocate _ v)).giveOutcome dest).answersTo
  | list items dest =>
      exact (hm.withOperands i items fun hs hm =>
        (hm.lift (hm.world.list i hs)).giveOutcome dest).answersTo
  | clone of dest =>
      have hclone := hm.lift (hm.world.clone (s.handle of))
      simp only [Session.performOp, hm.handle, hclone.outcome]
      exact (hclone.sessions.give dest _).answersTo
  | move of dest =>
      have htake := hm.take of
      simp only [Session.performOp, htake.outcome]
      exact (htake.sessions.give dest _).answersTo
  | null dest => exact (hm.give dest none).answersTo
  | drop of =>
      have htake := hm.take of
      simp only [Session.performOp, htake.outcome, hm.registers]
      exact ((htake.sessions.withWorld (htake.sessions.world.drop _)).outcome _).answersTo
  | get of position dest =>
      simp only [Session.performOp, hm.handle]
      exact ((hm.lift (hm.world.get _ position)).giveOutcome dest).answersTo
  | length of =>
      simp only [Session.performOp, hm.handle, hm.world.vectorSize]
      split
      · exact (hm.outcome _).answersTo
      · exact (hm.outcome _).answersTo
  | isEmpty of =>
      simp only [Session.performOp, hm.handle, hm.world.vectorSize]
      split
      · exact (hm.outcome _).answersTo
      · exact (hm.outcome _).answersTo
  | info of =>
      simp only [Session.performOp, Session.handleInfo, hm.handle, hm.world.read,
        refCount hm.world, hm.heaps]
      exact (hm.outcome _).answersTo
  | read of =>
      simp only [Session.performOp, hm.handle, hm.world.read, hm.view]
      exact (hm.outcome _).answersTo
  | print of =>
      simp only [Session.performOp, hm.handle, hm.world.read]
      exact (hm.outcome _).answersTo
  | sameCell a b =>
      simp only [Session.performOp, hm.handle]
      exact (hm.outcome _).answersTo
  | set of value =>
      refine (hm.withDraft i value fun {s s'} v hm => ?_).answersTo
      simp only [hm.handle]
      exact (hm.lift (hm.world.set _ v)).doneOutcome
  | write of position target =>
      simp only [Session.performOp, hm.handle]
      exact (hm.lift (hm.world.write _ position _)).doneOutcome.answersTo
  | push of target =>
      simp only [Session.performOp, hm.handle]
      exact (hm.lift (hm.world.push _ _)).doneOutcome.answersTo
  | slots of =>
      simp only [Session.performOp, hm.handle, hm.world.read, hm.world.readSlot]
      exact (hm.outcome _).answersTo
  | slot of index target dest => exact (hm.giveChild of index target dest).answersTo
  | element of index =>
      simp only [Session.performOp, Session.element, hm.handle, hm.world.read]
      exact (hm.outcome _).answersTo
  | graph of =>
      simp only [Session.performOp, hm.graph]
      exact (hm.outcome _).answersTo
  | hold name value =>
      refine (hm.withDraft i value fun {s s'} v hm => ?_).answersTo
      simp only [hm.view]
      exact (hm.keep name v).outcome _
  | dropHeld name =>
      have hclear := hm.change (f := fun s => { s with held := s.held.erase name }) rfl rfl
      simp only [Session.performOp, hm.held] at hclear ⊢
      split
      · exact (hm.outcome _).answersTo
      · exact ((hclear.withWorld (hm.world.settle _)).outcome _).answersTo
  | heldSlots name =>
      simp only [Session.performOp, hm.held]
      split
      · exact (hm.outcome _).answersTo
      · exact (hm.outcome _).answersTo
  | heldPut name index value =>
      exact (hm.withOperand i value fun h hm => hm.putChild name index h).answersTo
  | collect shared =>
      exact ((hm.withWorld (hm.world.collectNow _)).outcome _).answersTo
  | objects =>
      simp only [Session.performOp, hm.objects]
      exact (hm.outcome _).answersTo
  | roots =>
      simp only [Session.performOp, hm.roots]
      exact (hm.outcome _).answersTo
  | newScope dest parent =>
      rw [Session.performOp, Session.performOp]
      refine (hm.withParent parent [] fun p => ?_).answersTo
      have hnew := hm.lift (hm.world.newEnv p)
      simp only [hnew.outcome]
      exact (hnew.sessions.storeScope _ _).outcome _
  | bind dest params rest args parent =>
      exact (hm.performBind i dest params rest args parent).answersTo
  | define scope name value =>
      refine (hm.withOperand i value fun {s s'} h hm => ?_).answersTo
      refine hm.withScope scope [h] fun e => ?_
      have hdefined := hm.withWorld (hm.world.define e name h)
      have hinfo := scopeInfo hdefined.world e name
      exact ⟨hdefined, congrArg (fun info : ScopeInfo => Answer.number info.size) hinfo⟩
  | assign scope name value =>
      exact (hm.withOperand i value fun h hm =>
        hm.withScope scope [h] fun e =>
          (hm.lift (hm.world.assign e name h)).doneOutcome).answersTo
  | lookup scope name dest =>
      refine (hm.withScope scope [] fun e => ?_).answersTo
      have hlookup := hm.lift (hm.world.lookup e name)
      generalize s.lift (s.world.lookup e name) = out at hlookup ⊢
      generalize s'.lift (s'.world.lookup e name) = out' at hlookup ⊢
      obtain ⟨s₁, a⟩ := out
      obtain ⟨s₁', a'⟩ := out'
      obtain ⟨hm₁, rfl⟩ := hlookup
      cases a' with
      | none => exact hm₁.outcome _
      | some h => exact hm₁.give dest h
  | scopeInfo scope name =>
      refine (hm.withScope scope [] fun e => ?_).answersTo
      exact ⟨hm, congrArg Answer.scope (scopeInfo hm.world e name)⟩
  | parentScope scope dest =>
      refine (hm.withScope scope [] fun e => ?_).answersTo
      rw [hm.world.envs]
      exact hm.giveScope dest _
  | closureScope of dest =>
      simp only [Session.performOp, hm.handle, hm.world.read]
      exact (hm.giveScope dest _).answersTo
  | dropScope scope =>
      have hclear := hm.change (f := fun s => { s with scopes := s.scopes.erase scope }) rfl rfl
      simp only [Session.performOp, hm.scopes] at hclear ⊢
      split
      · exact (hm.outcome _).answersTo
      · exact ((hclear.withWorld (hm.world.settle _)).outcome _).answersTo
  | call of args dest =>
      refine (hm.withOperands i args fun {s s'} hs hm => ?_).answersTo
      simp only [hm.handle]
      exact (hm.lift (hm.world.apply i evaluationSteps _ hs)).giveOutcome dest
  | eval scope expr dest =>
      exact (hm.withScope scope [] fun e =>
        (hm.lift (hm.world.eval i evaluationSteps e expr)).giveOutcome dest).answersTo

mutual

theorem Mutes.perform {s s' : Session} (hm : s.Mutes s') (command : Command) :
    AnswersTo (s.perform command) (s'.perform command) := by
  cases command with
  | op index op =>
      rw [Session.perform, Session.perform, hm.heaps]
      exact hm.performOp _ op
  | rounds rounds =>
      have hrounds :=
        hm.performRounds 0 { failures := 0, first := none, collected := [] } rounds
      rw [Session.perform, Session.perform]
      simp only [hrounds.outcome]
      exact ⟨hrounds.sessions, .same _⟩

theorem Mutes.performRounds {s s' : Session} (hm : s.Mutes s') (number : Nat)
    (info : RoundsInfo) (rounds : List (List Command)) :
    MutesTo (s.performRounds number info rounds) (s'.performRounds number info rounds) := by
  cases rounds with
  | nil =>
      rw [Session.performRounds, Session.performRounds]
      exact hm.outcome info
  | cons round rounds =>
      have hround := hm.performRound info round
      rw [Session.performRounds, Session.performRounds]
      simp only [Session.collections, hm.stats, hround.outcome, hround.sessions.stats]
      exact hround.sessions.performRounds (number + 1) _ rounds

theorem Mutes.performRound {s s' : Session} (hm : s.Mutes s') (info : RoundsInfo)
    (commands : List Command) :
    MutesTo (s.performRound info commands) (s'.performRound info commands) := by
  cases commands with
  | nil =>
      rw [Session.performRound, Session.performRound]
      exact hm.outcome info
  | cons command commands =>
      have hone := hm.perform command
      rw [Session.performRound, Session.performRound]
      generalize s.perform command = out at hone ⊢
      generalize s'.perform command = out' at hone ⊢
      obtain ⟨s₁, a⟩ := out
      obtain ⟨s₁', a'⟩ := out'
      obtain ⟨hm₁, halike⟩ := hone
      cases halike with
      | heap h => exact hm₁.performRound info commands
      | same =>
          cases a with
          | failure f => exact hm₁.performRound _ commands
          | _ => exact hm₁.performRound info commands

end

end Session

end HybridHeap
