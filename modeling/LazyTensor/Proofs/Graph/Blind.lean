import LazyTensor.Graph.Schedule
import LazyTensor.Proofs.Graph.Run

/-! Making tensors and scheduling them never looks at the contents of memory: on a graph with other
contents the same happens, and the contents stay what they are. -/
namespace LazyTensor
variable {device : String} {element : Element} {vals : Bindings}

def Graph.holding (g : Graph) (m : Memory) : Graph := { g with memory := m }

/-- A question to which the contents of memory do not matter. -/
def Graph.Unseen {α : Type} (f : Graph → α) : Prop := ∀ g m, f (g.holding m) = f g

namespace GraphM
variable {α β γ : Type} {x : Nat}

/-- A change for which the contents of memory do not matter. -/
def Blind (x : GraphM α) : Prop :=
  ∀ g m, x.runOn (g.holding m) = ((x.runOn g).1, (x.runOn g).2.holding m)

namespace Blind
open LazyTensor.Graph
variable {f : α → GraphM β} {c : Prop} {y : GraphM α}
variable {x : GraphM α}

lemma memory_eq (h : Blind x) (g : Graph) : (x.runOn g).2.memory = g.memory :=
  congrArg (fun r => r.2.memory) (h g g.memory)

lemma pure (a : α) : Blind (Pure.pure a : GraphM α) := fun _ _ => rfl

lemma throw (e : Failure) : Blind (MonadExcept.throw e : GraphM α) := fun _ _ => rfl

lemma bind (hx : Blind x) (hf : ∀ a, Blind (f a)) : Blind (x >>= f) := by
  intro g m
  rw [runOn_bind, runOn_bind, hx]
  rcases x.runOn g with ⟨_ | a, g'⟩
  · rfl
  · exact hf a g' m

lemma map {f : α → β} (hx : Blind x) : Blind (f <$> x) := by
  exact bind hx fun _ => pure _

lemma checked (x : Checked α) : Blind (liftM x : GraphM α) := fun _ _ => rfl

lemma fallible (x : Fallible α) : Blind (liftM x : GraphM α) := fun _ _ => rfl

lemma see {f : Graph → Checked α} (hf : Unseen f) : Blind (GraphM.see f) := by
  intro g m
  rw [runOn_see, runOn_see, hf g m]

lemma bind_get {f : Graph → GraphM α} (h : Unseen f) (hf : ∀ g, Blind (f g)) :
    Blind (MonadState.get >>= f) := by
  intro g m
  rw [runOn_bind, runOn_bind, runOn_get, runOn_get]
  dsimp only
  rw [h g m]
  exact hf g g m

lemma lookup (x : Nat) : Blind (GraphM.lookup x) := fun _ _ => rfl

lemma change (x : Nat) (f : Tensor → Tensor) : Blind (GraphM.change x f) := by
  intro g m
  have hnone {g : Graph} (h : g.find? x = none) :
      (GraphM.change x f).runOn g = (.error (.abort (.notInGraph x)), g) := by
    have hup : g.update x f = .error (.notInGraph x) := by
      simp only [update, tensor, h]
      rfl
    rw [GraphM.change, runOn_bind, runOn_get]
    dsimp only
    rw [runOn_bind, runOn_checked, hup]
    rfl
  cases h : g.find? x with
  | some t =>
    rw [runOn_change h, runOn_change (g := g.holding m) h]
    rfl
  | none => rw [hnone h, hnone (g := g.holding m) h]

lemma modify {f : Graph → Graph} (h : ∀ g m, f (g.holding m) = (f g).holding m) :
    Blind (MonadState.modifyGet fun g => ((), f g) : GraphM Unit) := by
  intro g m
  exact congrArg (Prod.mk (Except.ok ())) (h g m)

lemma mapM {f : γ → GraphM α} (xs : List γ) (hf : ∀ x ∈ xs, Blind (f x)) :
    Blind (xs.mapM f) := by
  induction xs with
  | nil => exact pure _
  | cons x xs ih =>
    rw [List.mapM_cons]
    exact bind (hf x (by simp)) fun _ => bind (ih fun y hy => hf y (by simp [hy])) fun _ => pure _

lemma forM {f : γ → GraphM Unit} (xs : List γ) (hf : ∀ x, Blind (f x)) :
    Blind (xs.forM f) := by
  induction xs with
  | nil => exact pure _
  | cons x xs ih => exact bind (hf x) fun _ => ih

lemma foldlM {f : α → γ → GraphM α} (xs : List γ) (hf : ∀ a x, Blind (f a x)) (a : α) :
    Blind (xs.foldlM f a) := by
  induction xs generalizing a with
  | nil => exact pure _
  | cons x xs ih =>
    exact bind (hf a x) fun b => ih b

lemma ite [Decidable c] (hx : Blind x) (hy : Blind y) : Blind (if c then x else y) := by
  split
  · exact hx
  · exact hy

lemma choice [Decidable c] (hx : Blind x) (hy : Blind y) (hf : ∀ a, Blind (f a)) :
    Blind (if c then x >>= f else y >>= f) :=
  ite (bind hx hf) (bind hy hf)

lemma guard [Decidable c] {e : Failure} {f : Unit → GraphM α} (hf : Blind (f ())) :
    Blind (if c then MonadExcept.throw e >>= f else f ()) :=
  ite (fun _ _ => rfl) hf

end Blind

end GraphM

namespace Graph
open GraphM
variable {g : Graph} {m : Memory}

/-! Questions that walk through the graph. -/

lemma pending?_holding (x : Nat) : (g.holding m).pending? x = g.pending? x := rfl

lemma tensor_holding (x : Nat) : (g.holding m).tensor x = g.tensor x := rfl

lemma limit_holding : (g.holding m).limit = g.limit := rfl

lemma rootWithin_holding (copies : Bool) (n x : Nat) :
    (g.holding m).rootWithin copies n x = g.rootWithin copies n x := by
  induction n generalizing x with
  | zero => rfl
  | succ n ih => simp only [rootWithin, pending?_holding, tensor_holding, ih]

lemma contiguousRootWithin_holding (n x : Nat) :
    (g.holding m).contiguousRootWithin n x = g.contiguousRootWithin n x := by
  induction n generalizing x with
  | zero => rfl
  | succ n ih =>
    simp only [contiguousRootWithin, movementRoot, pending?_holding, tensor_holding, limit_holding,
      rootWithin_holding, ih]

lemma movesWithin_holding (n x : Nat) (moves : List Movement) :
    (g.holding m).movesWithin n x moves = g.movesWithin n x moves := by
  induction n generalizing x moves with
  | zero => rfl
  | succ n ih =>
    simp only [movesWithin, show ∀ x, (g.holding m).pendingMove? x = g.pendingMove? x from
      fun _ => rfl, show ∀ x, (g.holding m).childCount x = g.childCount x from fun _ => rfl,
      show (g.holding m).config = g.config from rfl, ih]

lemma pushable?_unseen (x : Nat) : Unseen (·.pushable? x) := by
  intro g m
  simp only [pushable?, limit_holding, movesWithin_holding]
  rfl

lemma fusedReduce_unseen (ks : List Nat) : Unseen (·.fusedReduce ks) := by
  intro g m
  have hfusable (k : Nat) : (g.holding m).fusable? k = g.fusable? k := by
    simp only [fusable?, contiguousRoot, limit_holding, contiguousRootWithin_holding]
    rfl
  induction ks with
  | nil => rfl
  | cons k ks ih =>
    simp only [fusedReduce, hfusable, ih]

end Graph

namespace GraphM
open LazyTensor.Graph

lemma insert_blind {t : Tensor} : Blind (insert t) := by
  refine .bind_get (fun _ _ => rfl) fun g => .bind (.forM _ fun _ => .change _ _) fun _ => ?_
  have finish {x : GraphM Unit} (hx : Blind x) : Blind (do
      x
      modify fun g => { g with tensors := g.tensors ++ [some t] }
      pure g.tensors.length) :=
    .bind hx fun _ => .bind (.modify fun _ _ => rfl) fun _ => .pure _
  have stop {β : Type} {f : PUnit → GraphM β} {e : Failure} : Blind
      (MonadExcept.throw e >>= f) :=
    fun _ _ => rfl
  cases t.base with
  | none =>
    have hrest := Blind.ite (c := (!t.layout.contiguous) = true)
      (finish (.throw (.abort .scatteredBase))) (finish (.pure ()))
    exact .ite stop hrest
  | some base =>
    have hrest :=
      finish (.change base fun b => { b with views := insertAsc g.tensors.length b.views })
    exact .ite (.bind (.see fun _ _ => rfl) fun _ => .ite stop hrest) hrest

lemma create_blind {layout : Layout} {op : OpTree}
    {base : Option Nat} : Blind (create device layout op element vals base) := by
  refine .bind_get (fun _ _ => rfl) fun g => ?_
  dsimp only
  split
  · exact .bind (.forM _ fun _ => .change _ _) fun _ => .pure _
  · refine .bind (insert_blind) fun id => ?_
    split
    · exact .bind (.modify fun _ _ => rfl) fun _ => .pure _
    · exact .pure _

end GraphM

namespace Graph
open GraphM
variable {op own : OpTree} {shape : Shape}

lemma load_blind {op : LoadOp} {arg : OpArg}
    {src : Option Nat} : Blind (load op shape element device arg src vals) := by
  have hmake : Blind (do
      let layout ← Layout.ofShape shape
      create device layout { op := .load op, arg, srcs := (src.map Source.buffer).toList } element
        vals none) := .bind (.fallible _) fun _ => create_blind
  refine .bind_get (fun _ _ => rfl) fun g =>
    .bind (.bind (.fallible _) fun _ => .pure _) fun _ => ?_
  cases src with
  | none => exact hmake
  | some src => exact .bind (.bind (.lookup src) fun _ => .pure _) fun _ => hmake

lemma contiguous_blind : Blind (contiguous x) := by
  refine .bind (.lookup x) fun t => .bind (.see fun _ _ => rfl) fun o => .ite (.pure _) ?_
  exact .bind (.see fun _ _ => rfl) fun _ => .bind (.see fun _ _ => rfl) fun _ => load_blind

lemma bindTarget_blind {target : Shape} : Blind (bindTarget x shape target) := by
  unfold bindTarget
  refine .ite (.pure _) ?_
  split
  · refine .bind (.checked _) fun total => .bind (.checked _) fun rest => .ite (.throw _) ?_
    refine .bind (.checked _) fun left => .ite (.throw _) ?_
    refine .bind (.checked _) fun value => .bind (.see fun _ _ => rfl) fun base =>
      .bind (.see fun _ _ => rfl) fun t => ?_
    split
    · exact .ite (.change _ _) (.throw _)
    · exact .ite (.throw _) (.pure _)
  · exact .throw _

namespace Rules

mutual

lemma pushInto_blind {p : Performer} (hp : ∀ call, Blind (p call)) {moves : List Movement}
    {s : Source} : Blind (pushInto p moves s) := by
  cases s with
  | buffer b =>
    exact .foldlM _ (fun _ _ => hp _) _
  | apply op arg srcs =>
    have hrest : Blind (do
        let srcs ← pushIntoAll p moves srcs
        p (.elementwise op srcs arg)) := .bind (pushIntoAll_blind hp) fun _ => hp _
    exact .ite (.bind (.throw _) fun _ => hrest) hrest

lemma pushIntoAll_blind {p : Performer} (hp : ∀ call, Blind (p call)) {moves : List Movement}
    {ss : List Source} : Blind (pushIntoAll p moves ss) := by
  cases ss with
  | nil =>
    exact .pure _
  | cons s ss =>
    exact .bind (pushInto_blind hp) fun _ => .bind (pushIntoAll_blind hp) fun _ => .pure _

end

variable {p : Performer} {x : Nat} {m : Movement}

lemma skipCopy_blind : Blind (skipCopy x) := by
  refine .bind (.see fun _ _ => rfl) fun o => ?_
  split
  · exact .bind (.change _ _) fun _ => .pure _
  · exact .pure _

lemma checkShapes_blind {op : Op} {xs : List Nat} : Blind (checkShapes op shape xs) :=
  .forM _ fun _ => .bind (.see fun _ _ => rfl) fun _ => .ite (.throw _) (.pure _)

section
variable (hp : ∀ call, Blind (p call))
variable {op : ReduceOp} {target shape : Shape} {axes : List Nat}
include hp

lemma pushMoves_blind : Blind (pushMoves p x) := by
  refine .bind (.see (pushable?_unseen x)) fun o => ?_
  split
  · exact pushInto_blind hp
  · exact .pure _

lemma elementwise_blind {op : Op} {srcs : List Nat} {arg : OpArg} :
    Blind (elementwise p op srcs arg) := by
  unfold elementwise
  refine .guard ?_
  cases srcs with
  | nil => exact .throw _
  | cons _ _ =>
    refine .bind (.forM _ fun _ => .bind (.lookup _) fun _ => .pure _) fun _ => ?_
    refine .bind (.see fun _ _ => rfl) fun shape => .bind checkShapes_blind fun _ => ?_
    refine .bind (.see fun _ _ => rfl) fun vals => .bind_get (fun _ _ => rfl) fun g => ?_
    refine .choice (.mapM _ fun _ _ => pushMoves_blind hp) (.pure _) fun srcs => ?_
    refine .bind (.see fun _ _ => rfl) fun head => .bind (.see fun _ _ => rfl) fun element => ?_
    refine .choice (.see fun _ _ => rfl) (.pure _) fun copies => .ite ?_ ?_
    · exact .bind (.mapM _ fun _ _ => skipCopy_blind) fun _ => .bind (hp _) fun _ =>
        contiguous_blind
    · exact .bind (.see fun _ _ => rfl) fun _ => .bind (.fallible _) fun _ => create_blind

lemma reduceOnce_blind : Blind (reduceOnce p op x target) := by
  refine .bind (.see fun _ _ => rfl) fun shape =>
    .ite (.pure _) (.bind_get (fun _ _ => rfl) fun g => ?_)
  refine .choice (pushMoves_blind hp) (.pure _) fun src => .bind (.see fun _ _ => rfl) fun t => ?_
  exact .bind (.see fun _ _ => rfl) fun vals => .bind (.fallible _) fun layout =>
    .bind (.see fun _ _ => rfl) fun element => create_blind

lemma reduce_blind : Blind (reduce p op x target) := by
  refine .bind (.lookup x) fun t => .guard (.bind (.see fun _ _ => rfl) fun o => ?_)
  split
  · exact reduceOnce_blind hp
  · refine .bind (.checked _) fun _ => .bind (hp _) fun a => .bind (.checked _) fun _ => ?_
    refine .bind (reduceOnce_blind hp) fun b => .bind (.checked _) fun _ => .bind (hp _) fun c => ?_
    exact reduceOnce_blind hp

lemma place_blind : Blind (place p x m) := by
  refine .bind (.see fun _ _ => rfl) fun t => .bind (.fallible _) fun layout =>
    .bind (.see fun _ _ => rfl) fun realized => .bind_get (fun _ _ => rfl) fun g => ?_
  dsimp only
  split
  · exact pushInto_blind hp
  · refine .choice (.see fun g m => ?_) (.pure _) fun root => ?_
    · simp only [movementRoot, limit_holding, rootWithin_holding]
      rfl
    · split
      · exact hp _
      · exact .bind (.see fun _ _ => rfl) fun base => .bind (.see fun _ _ => rfl) fun vals =>
          .bind (.see fun _ _ => rfl) fun element => create_blind

lemma pushPermute_blind : Blind (pushPermute p x shape axes) := by
  refine .bind_get (fun _ _ => rfl) fun g => .bind (.see fun _ _ => rfl) fun o => ?_
  split
  · exact .pure _
  · refine .bind (.checked _) fun s => ?_
    split
    · refine .ite (.bind (.checked _) fun target => .bind (.change _ _) fun _ => ?_) (.pure _)
      exact .bind (hp _) fun _ => .map (hp _)
    · exact .bind (.checked _) fun target => .bind (hp _) fun _ => .map (hp _)
    · refine .ite (.bind (.see fun _ _ => rfl) fun old => .bind (.checked _) fun groups => ?_)
        (.pure _)
      split
      · exact .pure _
      · refine .bind (.change _ _) fun _ => .bind (.checked _) fun flat => .bind (hp _) fun _ => ?_
        exact .bind (.checked _) fun _ => .map (hp _)
    · exact .pure _

lemma permute_blind : Blind (permute p x shape axes) := by
  refine .bind (.fallible _) fun ones => .ite (.bind (.checked _) fun _ => hp _) ?_
  refine .bind (.see fun _ _ => rfl) fun o => ?_
  split
  · exact hp _
  · refine .bind (pushPermute_blind hp) fun o => ?_
    split
    · exact .pure _
    · exact place_blind hp

lemma reshape_blind : Blind (reshape p x shape target) := by
  refine .bind bindTarget_blind fun _ => .bind (.see fun _ _ => rfl) fun o => ?_
  split
  · exact .bind (.change _ _) fun _ => hp _
  · exact place_blind hp

lemma move_blind : Blind (move p m x) := by
  refine .bind (.lookup x) fun t => .bind (.fallible _) fun _ => ?_
  cases m with
  | permute _ => exact .guard (.bind (.checked _) fun _ => .ite (.pure _) (permute_blind hp))
  | reshape _ => exact .bind (.checked _) fun _ => .ite (.pure _) (reshape_blind hp)
  | expand | pad | shrink | stride =>
    refine .bind (.checked _) fun _ => .ite (.pure _) (.bind (.see fun _ _ => rfl) fun o => ?_)
    split
    · exact hp _
    · exact place_blind hp

lemma apply_blind (call : Call) : Blind (apply p call) := by
  cases call with
  | elementwise op _ arg => exact elementwise_blind hp
  | reduce op x _ => exact reduce_blind hp
  | move m x => exact move_blind hp

end

end Rules

lemma performWithin_blind (n : Nat) : ∀ call, Blind (performWithin n call) := by
  induction n with
  | zero => exact fun _ => .throw _
  | succ n ih => exact Rules.apply_blind ih

lemma perform_blind {call : Call} : Blind (perform call) :=
  .bind_get (fun _ _ => rfl) fun _ => performWithin_blind _ _

lemma elementwiseTree_blind : Blind (elementwiseTree op shape) := by
  have hrest (fixed : List (Nat × Source)) (inner : Shape) : Blind (do
      let srcs ← op.buffers.eraseDups.foldlM (fun (srcs : List (Nat × Source)) k => do
        if (srcs.lookup k).isSome then pure srcs
        else return (k, Source.buffer (← move (.reshape inner) k)) :: srcs) fixed
      let tree := op.mapBuffers (srcs.lookup ·)
      pure (if inner == shape then tree
        else { op := .movement .reshape, arg := .shape shape, srcs := [.ofTree tree] })) :=
    .bind (.foldlM _ (fun _ _ => .ite (.pure _) (.bind perform_blind fun _ => .pure _)) _)
      fun _ => .pure _
  refine .bind_get (fun _ _ => rfl) fun g => ?_
  refine .choice (.see (fusedReduce_unseen _)) (.pure _) fun fused => ?_
  dsimp only
  split
  · exact .bind (.pure _) fun start => hrest start.1 start.2
  · refine .bind (.see fun _ _ => rfl) fun reduce => ?_
    split
    · exact .bind (.pure _) fun start => hrest start.1 start.2
    · refine .bind (.see fun _ _ => rfl) fun top => .bind (.see fun _ _ => rfl) fun target =>
        .bind (.see fun _ _ => rfl) fun own => ?_
      exact .bind (.pure _) fun start => hrest start.1 start.2

lemma pendingTree_blind : Blind (pendingTree x own) := by
  refine .bind (.see fun _ _ => rfl) fun t => ?_
  have hrest (op : OpTree) : Blind (do
      if ← see (·.misfitsImage x) then
        if t.base.isSome then throw (.abort .basedElement)
        change x (fun t => { t with element := .float32 })
        pure (floatTree op)
      else pure op) :=
    .bind (.see fun _ _ => rfl) fun _ =>
      .ite (.guard (.bind (.change _ _) fun _ => .pure _)) (.pure _)
  dsimp only
  split
  · exact .bind (.pure _) hrest
  · exact .bind elementwiseTree_blind hrest
  · exact .bind (.see fun _ _ => rfl) hrest
  · exact .bind (.pure _) hrest

lemma kernelItem_blind : Blind (kernelItem x op) := by
  refine .bind (.see fun _ _ => rfl) fun own => .bind (.see fun _ _ => rfl) fun others =>
    .bind (.fallible _) fun vals => .bind (.see fun _ _ => rfl) fun t => .guard ?_
  refine .bind (.change _ _) fun _ => .bind_get (fun _ _ => rfl) fun g => ?_
  exact .bind (.fallible _) fun _ => .pure _

lemma loadItem_blind {inputs : List Nat} : Blind (loadItem x own inputs) :=
  .bind (.see fun _ _ => rfl) fun _ => .pure _

/-- A part of a schedule, whatever was seen before it. -/
def BlindWalk {α : Type} (x : Scheduler α) : Prop := ∀ seen, Blind (x.run seen)

namespace BlindWalk
variable {α β : Type}
variable {next : Nat → Scheduler (List Item)}

lemma pure (a : α) : BlindWalk (Pure.pure a) := fun _ => .pure _

lemma bind {x : Scheduler α} {f : α → Scheduler β} (hx : BlindWalk x)
    (hf : ∀ a, BlindWalk (f a)) :
    BlindWalk (x >>= f) := by
  intro seen
  exact .bind (hx seen) fun r => hf r.1 r.2

lemma lift {x : GraphM α} (hx : Blind x) : BlindWalk (liftM x) :=
  fun _ => .bind hx fun _ => .pure _

lemma bind_get {f : List Nat → Scheduler β} (h : ∀ seen, BlindWalk (f seen)) :
    BlindWalk (MonadState.get >>= f) := fun seen => h seen seen

lemma bind_set {seen : List Nat} {f : PUnit → Scheduler β} (h : BlindWalk (f ⟨⟩)) :
    BlindWalk (MonadStateOf.set seen >>= f) := fun _ => h seen

lemma visitAll (hnext : ∀ x, BlindWalk (next x)) (ids : List Nat) :
    BlindWalk (visitAll next ids) := by
  refine bind ?_ fun _ => pure _
  induction ids with
  | nil => exact pure _
  | cons x ids ih =>
    rw [List.mapM_cons]
    exact bind (hnext x) fun _ => bind ih fun _ => pure _

lemma visit (hnext : ∀ x, BlindWalk (next x)) (x : Nat) : BlindWalk (visit next x) := by
  refine bind_get fun seen => bind (lift (.see fun _ _ => rfl)) fun done => ?_
  split
  · exact pure _
  refine bind_set (bind (lift (.see fun _ _ => rfl)) fun t => ?_)
  split
  · exact hnext _
  split
  · exact fun _ _ _ => rfl
  · next own _ =>
    split
    · exact bind (visitAll hnext _) fun _ => bind (lift loadItem_blind) fun _ => pure _
    · refine bind (lift pendingTree_blind) fun op => ?_
      have hkernel : BlindWalk (do
          let before ← Graph.visitAll next op.buffers
          return before ++ [← kernelItem x op]) :=
        bind (visitAll hnext _) fun _ => bind (lift kernelItem_blind) fun _ => pure _
      split
      · refine bind (lift (.see fun _ _ => rfl)) fun copied => ?_
        cases copied with
        | none => exact hkernel
        | some src => exact bind (hnext src) fun _ => bind (lift loadItem_blind) fun _ => pure _
      · exact hkernel

end BlindWalk

lemma visitWithin_blind (n : Nat) : ∀ x, BlindWalk (visitWithin n x) := by
  induction n with
  | zero => exact fun _ _ => .throw _
  | succ n ih => exact .visit ih

lemma schedule_blind : Blind (schedule x) := by
  refine .bind (.bind (.lookup x) fun _ => .pure _) fun _ => .bind_get (fun g m => ?_) fun g => ?_
  · rw [limit_holding]
  · generalize g.limit = n
    exact .map (visitWithin_blind n x [])

end Graph

end LazyTensor
