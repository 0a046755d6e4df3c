import LazyTensor.Proofs.Graph.Order

/-! Schedules: every tensor is scheduled at most once, none that is realized is, and every program
comes after those that fill what it reads. -/
namespace LazyTensor
open Checked GraphM LazyTensor.Graph List Item Steps
variable {r : Bool} {own : OpTree}

/-- A part of a schedule, made after some tensors were seen. -/
def Walks {α : Type} (K : Graph → Graph → Prop) (g : Graph) (seen : List Nat)
    (x : Scheduler α) (Q : α → List Nat → Graph → Prop) : Prop :=
  Yields K g (x.run seen) (fun r g' => Q r.1 r.2 g')

namespace Walks
variable {α β : Type} {K : Graph → Graph → Prop} {g : Graph} {seen : List Nat}
  {P Q : α → List Nat → Graph → Prop}
variable {f : α → Scheduler β} {R : β → List Nat → Graph → Prop}

lemma pure {a : α} (hk : K g g) (h : Q a seen g) : Walks K g seen (Pure.pure a) Q :=
  Yields.pure hk h

lemma throw {e : Failure} (hk : K g g) : Walks K g seen (MonadExcept.throw e) Q :=
  ⟨hk, fun _ hr => by cases hr⟩

lemma bind [Steps K] {x : Scheduler α} (hx : Walks K g seen x P)
    (hf : ∀ a seen' g', K g g' → P a seen' g' → Walks K g' seen' (f a) R) :
    Walks K g seen (x >>= f) R := by
  unfold Walks
  rw [StateT.run_bind]
  exact Yields.bind hx fun r g' h hp => hf r.1 r.2 g' h hp

lemma weaken {x : Scheduler α} (hx : Walks K g seen x P)
    (h : ∀ a seen' g', K g g' → P a seen' g' → Q a seen' g') : Walks K g seen x Q :=
  Yields.weaken hx fun r g' hk hp => h r.1 r.2 g' hk hp

lemma lift [Steps K] {x : GraphM α} (hx : Yields K g x (fun a g' => Q a seen g')) :
    Walks K g seen (liftM x) Q := by
  unfold Walks
  rw [show StateT.run (liftM x : Scheduler α) seen = x >>= fun a => Pure.pure (a, seen) from rfl]
  exact Yields.bind hx fun a g' h hq => Yields.pure (stay h) hq

lemma bind_get {f : List Nat → Scheduler β} (h : Walks K g seen (f seen) R) :
    Walks K g seen (MonadState.get >>= f) R := h

lemma bind_set {seen' : List Nat} {f : PUnit → Scheduler β} (h : Walks K g seen' (f ⟨⟩) R) :
    Walks K g seen (MonadStateOf.set seen' >>= f) R := h

lemma bind_lift [Steps K] {P : α → Graph → Prop} {x : GraphM α} (hx : Yields K g x P)
    (hf : ∀ a g', K g g' → P a g' → Walks K g' seen (f a) R) :
    Walks K g seen ((liftM x : Scheduler α) >>= f) R := by
  refine bind (P := fun a seen' g' => seen' = seen ∧ P a g')
    (lift (hx.weaken fun a g' _ ha => ⟨rfl, ha⟩)) fun a _ g' h hq => ?_
  obtain ⟨rfl, ha⟩ := hq
  exact hf a g' h ha

lemma bind_see [Steps K] {c : Graph → Checked α} (hk : K g g)
    (h : ∀ a, c g = .ok a → Walks K g seen (f a) R) :
    Walks K g seen ((liftM (GraphM.see c) : Scheduler α) >>= f) R :=
  bind_lift (P := fun a g' => g' = g ∧ c g = .ok a) (.see hk fun a ha => ⟨rfl, ha⟩)
    fun a _ _ hq => by
    obtain ⟨rfl, ha⟩ := hq
    exact h a ha

end Walks

namespace Graph
variable {g g' : Graph} {outs outs' : List Nat} {x y b : Nat} {t : Tensor}

lemma isPendingConst_eq_ok : g.isPendingConst x = .ok r ↔
    ∃ t tb, g.find? x = some t ∧ g.find? (t.base.getD x) = some tb ∧
      (tb.realized.isNone && (tb.op.map (·.op)) == some (.load .const)
        && (g.device? t.device).any Device.isCompiled) = r := by
  simp only [isPendingConst, bind_eq_ok, tensor_eq_ok, baseTensor_eq_ok, pure_eq_ok]
  constructor
  · rintro ⟨t, ht, tb, ⟨t', ht', htb⟩, hr⟩
    cases ht.symm.trans ht'
    exact ⟨t, tb, ht, htb, hr⟩
  · rintro ⟨t, tb, ht, htb, hr⟩
    exact ⟨t, ht, tb, ⟨t, ht, htb⟩, hr⟩

lemma Extends.baseOf (h : g.Extends g') (hb : g.baseOf x = .ok b) : g'.baseOf x = .ok b := by
  obtain ⟨t, ht, rfl⟩ := baseOf_eq_ok.1 hb
  obtain ⟨t', ht', ha⟩ := h.keeps ht
  exact baseOf_eq_ok.2 ⟨t', ht', by rw [ha.base]⟩

lemma Extends.isPendingConst (h : g.Extends g') (hr : g.isPendingConst x = .ok r) :
    g'.isPendingConst x = .ok r := by
  obtain ⟨t, tb, ht, htb, hr⟩ := isPendingConst_eq_ok.1 hr
  obtain ⟨t', ht', ha⟩ := h.keeps ht
  obtain ⟨tb', htb', hab⟩ := h.keeps htb
  refine isPendingConst_eq_ok.2 ⟨t', tb', ht', by rw [ha.base]; exact htb', ?_⟩
  rw [hab.realized, hab.op, ha.device, device?, h.devices]
  exact hr

def Filled (g : Graph) (x : Nat) : Prop :=
  ∃ t, g.find? x = some t ∧ t.base = none ∧ t.realized.isSome = true

/-- What a tensor looks at has contents, or will have them once `outs` have. -/
def Avail (g : Graph) (outs : List Nat) (y : Nat) : Prop :=
  ∃ t, g.find? y = some t ∧
    (g.isRealized y = .ok true ∨ g.isPendingConst y = .ok true ∨ t.base.getD y ∈ outs)

lemma Avail.mono (h : g.Avail outs y) (hk : g.Extends g') (ho : ∀ o ∈ outs, o ∈ outs') :
    g'.Avail outs' y := by
  obtain ⟨t, ht, h⟩ := h
  obtain ⟨t', ht', ha⟩ := hk.keeps ht
  refine ⟨t', ht', ?_⟩
  rw [ha.base]
  exact h.imp hk.isRealized (Or.imp hk.isPendingConst (ho _))

end Graph

namespace Reading
variable {g g' : Graph} {outs outs' : List Nat} {x y b : Nat} {t : Tensor}
variable {item : Item} {items2 : List Item} {ids seen' : List Nat} {op : OpTree}
variable {items : List Item} {seen : List Nat}

lemma isPendingConst_base (hg : depth.Sound g) (hb : g.baseOf x = .ok b) :
    g.isPendingConst b = g.isPendingConst x := by
  obtain ⟨t, ht, rfl⟩ := baseOf_eq_ok.1 hb
  obtain ⟨tb, htb, _, hdevice⟩ := hg.base ht
  simp only [isPendingConst, hg.baseTensor hb, tensor_eq_ok.2 ht, tensor_eq_ok.2 htb,
    ok_bind, hdevice]

lemma avail_base (hg : depth.Sound g) (hb : g.baseOf x = .ok b) :
    g.Avail outs b ↔ g.Avail outs x := by
  unfold Avail
  rw [hg.isRealized hb, isPendingConst_base hg hb]
  obtain ⟨t, ht, rfl⟩ := baseOf_eq_ok.1 hb
  obtain ⟨tb, htb, hnone, _⟩ := hg.base ht
  simp [ht, htb, hnone]

lemma base_of_avail (hg : depth.Sound g) (h : g.Avail outs b) (hc : g.isPendingConst b ≠ .ok true)
    (hx : g.baseOf b = .ok x) : g.Filled x ∨ x ∈ outs := by
  obtain ⟨t, ht, rfl⟩ := baseOf_eq_ok.1 hx
  obtain ⟨tb, htb, hnone, _⟩ := hg.base ht
  obtain ⟨t', ht', hr | hc' | ho⟩ := h <;> cases ht.symm.trans ht'
  · obtain ⟨t1, tb1, ht1, htb1, hr⟩ := isRealized_eq_ok.1 hr
    cases ht.symm.trans ht1
    cases htb.symm.trans htb1
    exact .inl ⟨tb, htb, hnone, hr⟩
  · exact (hc hc').elim
  · exact .inr ho

/-- What an item reads is available. Programs read bases, and only loads that do not look for a
copy may read a constant that programs contain. -/
def Ready (g : Graph) (outs : List Nat) (item : Item) : Prop :=
  ∀ i ∈ item.inputs, g.Avail outs i ∧
    (g.isPendingConst i = .ok false ∨ item.tree.op.kind = .load ∧
      item.tree.op ≠ .load .contiguous) ∧
    (item.tree.op.kind ≠ .load → g.baseOf i = .ok i)

lemma Ready.mono (h : Ready g outs item) (hk : g.Extends g') : Ready g' outs item := by
  intro i hi
  obtain ⟨ha, hc, hb⟩ := h i hi
  exact ⟨ha.mono hk fun _ ho => ho, hc.imp_left hk.isPendingConst, fun hkind =>
    hk.baseOf (hb hkind)⟩

/-- Every item comes after those that fill what it reads. -/
def InOrder (g : Graph) : List Nat → List Item → Prop
  | _, [] => True
  | outs, item :: items => Ready g outs item ∧ InOrder g (outs ++ [item.out]) items

lemma inOrder_append : InOrder g outs (items ++ items2) ↔
    InOrder g outs items ∧ InOrder g (outs ++ items.map out) items2 := by
  induction items generalizing outs with
  | nil => simp [InOrder]
  | cons _ items ih =>
    simp only [cons_append, InOrder, ih, map_cons, append_assoc, nil_append, and_assoc]

lemma InOrder.mono (h : InOrder g outs items) (hk : g.Extends g') : InOrder g' outs items := by
  induction items generalizing outs with
  | nil => trivial
  | cons _ items ih =>
    exact ⟨h.1.mono hk, ih h.2⟩

/-- What a part of a schedule has done for some tensors. -/
structure Visits (outs seen ids : List Nat) (items : List Item) (seen' : List Nat) (g : Graph) :
    Prop where
  grows : ∀ y ∈ seen, y ∈ seen'
  new : ∀ y ∈ seen', y ∈ seen ∨ g.Avail (outs ++ items.map out) y
  avail : ∀ y ∈ ids, g.Avail (outs ++ items.map out) y
  fresh : ∀ o ∈ items.map out, o ∈ seen' ∧ o ∉ seen
  nodup : (items.map out).Nodup
  pending : ∀ o ∈ items.map out, g.isRealized o = .ok false
  order : InOrder g outs items

/-- The tensors that were seen are available, or wait for something that the tensor lies below
of. -/
def Waits (g : Graph) (outs seen : List Nat) (x : Nat) : Prop :=
  ∀ y ∈ seen, g.Avail outs y ∨ Below g x y

lemma Visits.nil : Visits outs seen [] [] seen g :=
  ⟨fun _ h => h, fun _ h => .inl h, by simp, by simp, by simp, by simp, trivial⟩

lemma Visits.append {seen1 seen2 ids2 : List Nat} (h : Visits outs seen ids items seen1 g)
    (hk : g.Extends g') (h2 : Visits (outs ++ items.map out) seen1 ids2 items2 seen2 g') :
    Visits outs seen (ids ++ ids2) (items ++ items2) seen2 g' := by
  have hsub : ∀ o ∈ outs ++ items.map out, o ∈ outs ++ (items ++ items2).map out := by
    intro o ho
    simp only [map_append, mem_append] at ho ⊢
    tauto
  have hall (y : Nat) (hy : g'.Avail (outs ++ items.map out ++ items2.map out) y) :
      g'.Avail (outs ++ (items ++ items2).map out) y := by
    rwa [append_assoc, ← map_append] at hy
  refine ⟨fun y hy => h2.grows y (h.grows y hy), fun y hy => ?_, fun y hy =>
    ?_, fun o ho => ?_, ?_,
    fun o ho => ?_, inOrder_append.2 ⟨h.order.mono hk, h2.order⟩⟩
  · obtain hy | hy := h2.new y hy
    · exact (h.new y hy).imp_right fun ha => ha.mono hk hsub
    · exact .inr (hall y hy)
  · obtain hy | hy := mem_append.1 hy
    · exact (h.avail y hy).mono hk hsub
    · exact hall y (h2.avail y hy)
  · rw [map_append] at ho
    obtain ho | ho := mem_append.1 ho
    · exact ⟨h2.grows o (h.fresh o ho).1, (h.fresh o ho).2⟩
    · exact ⟨(h2.fresh o ho).1, fun hs => (h2.fresh o ho).2 (h.grows o hs)⟩
  · rw [map_append]
    refine nodup_append.2 ⟨h.nodup, h2.nodup, fun o ho o2 ho2 heq => ?_⟩
    subst heq
    exact (h2.fresh o ho2).2 (h.fresh o ho).1
  · rw [map_append] at ho
    obtain ho | ho := mem_append.1 ho
    · exact hk.isRealized (h.pending o ho)
    · exact h2.pending o ho

lemma Visits.snoc (h : Visits outs (x :: seen) ids items seen' g) (hk : g.Extends g')
    (hx : x ∉ seen) (ht : g'.find? x = some t) (hb : t.base = none)
    (hr : g'.isRealized x = .ok false) (hout : item.out = x)
    (hin : Ready g' (outs ++ items.map out) item) :
    Visits outs seen [x] (items ++ [item]) seen' g' := by
  have hmem : x ∈ outs ++ (items ++ [item]).map out := by simp [hout]
  have hxavail : g'.Avail (outs ++ (items ++ [item]).map out) x :=
    ⟨t, ht, .inr (.inr (by rw [hb]; exact hmem))⟩
  have hsub : ∀ o ∈ outs ++ items.map out, o ∈ outs ++ (items ++ [item]).map out := by
    intro o ho
    simp only [map_append, mem_append] at ho ⊢
    tauto
  have hcases : ∀ o ∈ (items ++ [item]).map out, o ∈ items.map out ∨ o = x := by
    intro o ho
    simpa [hout] using ho
  refine ⟨fun y hy => h.grows y (mem_cons_of_mem _ hy), fun y hy => ?_, ?_, fun o ho => ?_, ?_,
    fun o ho => ?_, inOrder_append.2 ⟨h.order.mono hk, hin, trivial⟩⟩
  · obtain hy | hy := h.new y hy
    · obtain rfl | hy := mem_cons.1 hy
      · exact .inr hxavail
      · exact .inl hy
    · exact .inr (hy.mono hk hsub)
  · simpa using hxavail
  · obtain ho | rfl := hcases o ho
    · exact ⟨(h.fresh o ho).1, fun hs => (h.fresh o ho).2 (mem_cons_of_mem _ hs)⟩
    · exact ⟨h.grows o mem_cons_self, hx⟩
  · rw [map_append]
    refine nodup_append.2 ⟨h.nodup, by simp, fun o ho o2 ho2 heq => ?_⟩
    obtain rfl : o2 = x := by simpa [hout] using ho2
    exact (h.fresh o ho).2 (heq ▸ mem_cons_self)
  · obtain ho | rfl := hcases o ho
    · exact hk.isRealized (h.pending o ho)
    · exact hr

lemma Visits.view (hg : depth.Sound g) (h : Visits outs (x :: seen) [b] items seen' g)
    (ht : g.find? x = some t) (hb : t.base = some b) : Visits outs seen [x] items seen' g := by
  have hx := (avail_base hg (baseOf_eq_ok.2 ⟨t, ht, by rw [hb]; rfl⟩)).1 (h.avail b (by simp))
  refine ⟨fun y hy => h.grows y (mem_cons_of_mem _ hy), fun y hy => ?_, by simpa using hx,
    fun o ho => ?_, h.nodup, h.pending, h.order⟩
  · obtain hy | hy := h.new y hy
    · obtain rfl | hy := mem_cons.1 hy
      · exact .inr hx
      · exact .inl hy
    · exact .inr hy
  · exact ⟨(h.fresh o ho).1, fun hs => (h.fresh o ho).2 (mem_cons_of_mem _ hs)⟩

lemma Waits.below (h : Waits g outs seen x) (hb : Below g b x) : Waits g outs (x :: seen) b := by
  intro y hy
  obtain rfl | hy := mem_cons.1 hy
  · exact .inr hb
  · exact (h y hy).imp_right hb.trans

lemma Waits.mono (h : Waits g outs seen x) (hk : g.Extends g') : Waits g' outs seen x :=
  fun y hy => (h y hy).imp (fun ha => ha.mono hk fun _ ho => ho) fun hb => hb.mono hk

lemma Waits.after (h : Waits g outs seen x) (hk : g.Extends g')
    (hv : Visits outs seen ids items seen' g') : Waits g' (outs ++ items.map out) seen' x := by
  intro y hy
  obtain hy | hy := hv.new y hy
  · exact (h y hy).imp (fun ha => ha.mono hk fun o ho => mem_append_left _ ho) fun hb => hb.mono hk
  · exact .inl hy

lemma mem_basesOf {bases : List Nat} {i : Nat} (h : g.basesOf op = .ok bases) (hi : i ∈ bases) :
    ∃ b ∈ op.buffers, g.isPendingConst b = .ok false ∧ g.baseOf b = .ok i := by
  simp only [basesOf, bind_eq_ok, pure_eq_ok] at h
  obtain ⟨_, hfound, rfl⟩ := h
  rw [mem_eraseDups, mem_filterMap] at hi
  obtain ⟨o, ho, rfl⟩ := hi
  obtain ⟨b, hb, hbase⟩ := exists_of_mapM hfound ho
  obtain ⟨const, hconst, hbase⟩ := bind_eq_ok.1 hbase
  refine ⟨b, hb, ?_⟩
  cases const with
  | true => cases pure_eq_ok.1 hbase
  | false =>
    obtain ⟨c, hc, heq⟩ := map_eq_ok.1 hbase
    cases heq
    exact ⟨hconst, hc⟩

lemma kernelItem_rule {R : Reading} {Q : Item → Graph → Prop} (hg : R.Sound g)
    (h : ∀ {g' tree inputs vals}, g.Extends g' → R.Sound g' →
      g'.slotTree op = .ok (tree, inputs) →
      Q { tree, out := x, inputs, vals } g') : Yields R.Keeps g (kernelItem x op) Q := by
  have hk : R.Keeps g g := .refl hg
  refine .bind_see hk fun own _ => .bind_see hk fun others _ => .bind_fallible hk fun vals _ => ?_
  refine .bind_see hk fun t ht => .guard hk fun _ => ?_
  have hchange : Yields R.Relinks g (change x (fun t => { t with vals })) (fun _ _ => True) :=
    change_yields hg (fun _ => ⟨rfl, rfl, rfl, rfl, rfl, rfl⟩) (fun _ => rfl) (fun _ _ => .inl)
  refine .bind (hchange.coarsen fun _ h => h.keeps) fun _ g1 h1 _ => .bind_get (stay h1) ?_
  exact .bind_fallible (stay h1) fun slots hslots =>
    .pure (stay h1) (h h1.2 h1.1 hslots)

lemma kernelItem_yields (hg : depth.Sound g) (havail : ∀ b ∈ op.buffers, g.Avail outs b) :
    Yields depth.Keeps g (kernelItem x op)
      (fun item g' => item.out = x ∧ Ready g' outs item ∧ item.tree.op = op.unreshaped.op) := by
  refine kernelItem_rule hg fun {g1 tree inputs vals} hk hg1 hslots => ?_
  simp only [slotTree, bind_eq_ok, pure_eq_ok] at hslots
  obtain ⟨_, hbases, _, _, hslots⟩ := hslots
  cases hslots
  refine ⟨rfl, fun i hi => ?_, rfl⟩
  obtain ⟨b, hb, hconst, hbase⟩ := mem_basesOf (lift_eq_ok.1 hbases) hi
  refine ⟨(avail_base hg1 hbase).2 ((havail b hb).mono hk fun _ ho => ho),
    .inl ((isPendingConst_base hg1 hbase).trans hconst), fun _ => ?_⟩
  obtain ⟨t, ht, rfl⟩ := baseOf_eq_ok.1 hbase
  obtain ⟨tb, htb, hnone, _⟩ := hg1.base ht
  exact baseOf_eq_ok.2 ⟨tb, htb, by rw [hnone]; rfl⟩

lemma loadItem_yields {inputs : List Nat} (hg : depth.Sound g) :
    Yields depth.Keeps g (loadItem x own inputs)
      (fun item _ => item.out = x ∧ item.tree = own ∧ item.inputs = inputs) := by
  have hk : depth.Keeps g g := .refl hg
  exact .bind_see hk fun vals _ => .pure hk ⟨rfl, rfl, rfl⟩

end Reading

namespace Graph
variable {g g' : Graph} {x : Nat} {items : List Item}

/-- Items that end with the contents of a tensor: they are made last, they are those of the base, or
a copy takes them over from a tensor for which all other items are. -/
inductive Settles (g : Graph) : List Item → Nat → Prop
  | nothing (x : Nat) : Settles g [] x
  | view {items : List Item} {x b : Nat} (h : g.baseOf x = .ok b)
      (hb : Settles g items b) : Settles g items x
  | made {item : Item} (items : List Item) (h : item.tree.op ≠ .load .contiguous) :
      Settles g (items ++ [item]) item.out
  | copied {items : List Item} {item : Item} {src : Nat} (h : item.tree.op = .load .contiguous)
      (hin : item.inputs = [src]) (hsrc : Settles g items src) : Settles g
        (items ++ [item]) item.out

lemma Settles.mono (h : g.Settles items x) (hk : g.Extends g') : g'.Settles items x := by
  induction h with
  | nothing x => exact .nothing x
  | view h _ ih => exact .view (hk.baseOf h) ih
  | made items h => exact .made items h
  | copied h hin _ ih => exact .copied h hin ih

end Graph

namespace Reading
variable {g g' : Graph} {outs outs' : List Nat} {x y b : Nat} {t : Tensor}
variable {next : Nat → Scheduler (List Item)}

/-- A visit of a tensor that nothing waits for. It ends with the contents of the tensor. -/
def Visitor (next : Nat → Scheduler (List Item)) : Prop :=
  ∀ {g outs seen x}, depth.Sound g → g.Has x → Waits g outs seen x →
    Walks depth.Keeps g seen (next x)
    (fun items seen' g' => Visits outs seen [x] items seen' g' ∧ g'.Settles items x)

lemma visitAll_walks (hnext : Visitor next) {seen ids : List Nat} (hg : depth.Sound g)
    (hids : ∀ b ∈ ids, g.Has b ∧ Waits g outs seen b) :
    Walks depth.Keeps g seen (visitAll next ids)
      (fun items seen' g' => Visits outs seen ids items seen' g') := by
  have hk : depth.Keeps g g := .refl hg
  induction ids generalizing g outs seen with
  | nil => exact .pure hk .nil
  | cons b ids ih =>
    obtain ⟨hb, hwait⟩ := hids b (by simp)
    have hsplit : visitAll next (b :: ids) =
        (do let items ← next b; let rest ← visitAll next ids; pure (items ++ rest)) := by
      simp [visitAll, mapM_cons]
    rw [hsplit]
    refine .bind (hnext hg hb hwait) fun items seen1 g1 h1 ⟨hitems, _⟩ => ?_
    refine .bind (ih h1.1 (fun c hc => ?_) (stay h1)) fun rest seen2 g2 h2 hrest =>
      .pure (stay h2) (hitems.append h2.2 hrest)
    · obtain ⟨hchas, hcwait⟩ := hids c (by simp [hc])
      exact ⟨h1.2.has hchas, hcwait.after h1.2 hitems⟩

lemma done_eq_ok {seen : List Nat} {done : Bool} (h : (if seen.contains x then pure true
      else do if ← g.isRealized x then pure true else g.isPendingConst x :
      Checked Bool) = .ok done) :
    if done then x ∈ seen ∨ g.isRealized x = .ok true ∨ g.isPendingConst x = .ok true
    else x ∉ seen ∧ g.isRealized x = .ok false := by
  split at h
  · rename_i hseen
    cases pure_eq_ok.1 h
    exact .inl (by simpa using hseen)
  · rename_i hseen
    obtain ⟨filled, hfilled, h⟩ := bind_eq_ok.1 h
    cases filled with
    | true =>
      cases pure_eq_ok.1 h
      exact .inr (.inl hfilled)
    | false =>
      cases done with
      | true => exact .inr (.inr h)
      | false => exact ⟨by simpa using hseen, hfilled⟩

lemma mem_of_aliased {src : Nat} (h : g.aliased? own = .ok (some src)) :
    src ∈ own.buffers ∧ g.isPendingConst src = .ok false := by
  obtain ⟨s, hs, h⟩ := bind_eq_ok.1 h
  split at h
  · rename_i src' _
    obtain ⟨t, _, h⟩ := bind_eq_ok.1 h
    split at h
    · simp only [bind_eq_ok, pure_eq_ok] at h
      obtain ⟨_, _, _, _, _, _, const, hconst, h⟩ := h
      split at h
      · next hcopy =>
        cases h
        obtain ⟨rest, hsrcs⟩ : ∃ rest, own.srcs = .buffer src :: rest := by
          cases hsrcs : own.srcs with
          | nil => simp [nth_eq_ok, hsrcs] at hs
          | cons s rest =>
            rw [nth_eq_ok, hsrcs] at hs
            exact ⟨rest, by simpa using hs⟩
        refine ⟨by simp [OpTree.buffers, hsrcs, Source.buffersAll, Source.buffers], ?_⟩
        cases const with
        | true => simp at hcopy
        | false => exact hconst
      · cases h
    · cases h
  · cases h

lemma Visitor.visit (hnext : Visitor next) : Visitor (visit next) := by
  intro g outs seen x hg hx hwait
  have hk : depth.Keeps g g := .refl hg
  obtain ⟨t, ht⟩ := hx
  refine .bind_get (.bind_see hk fun done hdone => ?_)
  replace hdone := done_eq_ok hdone
  cases done with
  | true =>
    refine .pure hk
      ⟨⟨fun _ h => h, fun _ h => .inl h, ?_, by simp, by simp, by simp, trivial⟩,
        .nothing x⟩
    obtain hseen | hdone := hdone
    · obtain havail | hbelow := hwait x hseen
      · simpa using havail
      · exact (Below.irrefl hg hbelow).elim
    · exact forall_mem_singleton.2 ⟨t, ht, hdone.imp_right .inl⟩
  | false =>
    obtain ⟨hnew, hpending⟩ := hdone
    refine .bind_set (.bind_see hk fun t' ht' => ?_)
    cases ht.symm.trans (tensor_eq_ok.1 ht')
    have hmove := (hg.at_id ht).movement
    split
    · rename_i hkind
      obtain ⟨b, hb⟩ := Option.isSome_iff_exists.1 (hmove.1 hkind)
      rw [hb]
      refine (hnext hg (hg.has_base ht hb) (hwait.below (below_base hg ht hb))).weaken
        fun items seen' g1 h1 ⟨hitems, hsettles⟩ => ?_
      obtain ⟨t1, ht1, ha⟩ := h1.2.keeps ht
      refine ⟨hitems.view h1.1 ht1 (ha.base.trans hb),
        .view (baseOf_eq_ok.2 ⟨t1, ht1, ?_⟩) hsettles⟩
      rw [ha.base, hb]
      rfl
    · rename_i hkind
      have hb : t.base = none := by simpa using mt hmove.2 hkind
      have snoc {items : List Item} {seen' ids : List Nat} {item : Item} {g1 g2 : Graph}
          (h1 : g.Extends g1) (hitems : Visits outs (x :: seen) ids items seen' g1)
          (h2 : g1.Extends g2) (hout : item.out = x) (hin : Ready g2 (outs ++ items.map out) item) :
          Visits outs seen [x] (items ++ [item]) seen' g2 := by
        obtain ⟨t2, ht2, ha⟩ := (h1.trans h2).keeps ht
        exact hitems.snoc h2 hnew ht2 (ha.base.trans hb)
          ((h1.trans h2).isRealized hpending) hout hin
      split
      · exact .throw hk
      · rename_i own hop
        split
        · rename_i hload
          simp only [Bool.and_eq_true, decide_eq_true_eq, bne_iff_ne] at hload
          have hids : ∀ b ∈ own.buffers, g.Has b ∧ Waits g outs (x :: seen) b := fun b hbm =>
            (below_source hg ht hb hop hbm).imp_right hwait.below
          refine .bind (visitAll_walks hnext hg hids) fun items seen' g1 h1 hitems => ?_
          refine .bind_lift (loadItem_yields h1.1) fun item g2 h2 hitem => .pure (stay h2) ?_
          obtain ⟨hout, rfl, hin⟩ := hitem
          refine ⟨snoc h1.2 hitems h2.2 hout fun i hi =>
            ⟨?_, .inr hload, fun hne => (hne hload.1).elim⟩,
            hout ▸ .made items hload.2⟩
          exact (hitems.avail i (hin ▸ hi)).mono h2.2 fun _ ho => ho
        · rename_i hload
          have hload : own.op.kind = .load → own.op = .load .contiguous := fun hk => by
            simpa [hk] using hload
          refine .bind_lift (pendingTree_yields hg ht hb hop hload)
            fun op g1 h1 ⟨hop1, hruns⟩ => ?_
          have hk1 := stay h1
          have hwait1 := hwait.mono h1.2
          have kernel : Walks depth.Keeps g1 (x :: seen) (do
              let before ← visitAll next op.buffers
              return before ++ [← kernelItem x op])
              (fun items seen' g' => Visits outs seen [x] items seen' g' ∧
                g'.Settles items x) := by
            have hids : ∀ b ∈ op.buffers, g1.Has b ∧ Waits g1 outs (x :: seen) b :=
              fun b hbm => (hop1 b hbm).imp_right hwait1.below
            refine .bind (visitAll_walks hnext h1.1 hids) fun items seen' g2 h2 hitems => ?_
            refine .bind_lift (kernelItem_yields h2.1 hitems.avail) fun item g3 h3 hitem =>
              .pure (stay h3) ?_
            obtain ⟨hout, hready, htree⟩ := hitem
            refine ⟨snoc (h1.2.trans h2.2) hitems h3.2 hout hready,
              hout ▸ .made items fun hcopy => hruns ?_⟩
            rw [← htree, hcopy]
            rfl
          split
          · rename_i hcopy
            refine .bind_see hk1 fun copied hcopied => ?_
            cases copied with
            | none => exact kernel
            | some src =>
              obtain ⟨hmem, hconst⟩ := mem_of_aliased hcopied
              obtain ⟨hbhas, hbelow⟩ := below_source hg ht hb hop hmem
              refine .bind (hnext h1.1 (h1.2.has hbhas) (hwait1.below (hbelow.mono h1.2)))
                fun items seen' g2 h2 ⟨hitems, hsettles⟩ => ?_
              refine .bind_lift (loadItem_yields h2.1) fun item g3 h3 hitem =>
                .pure (stay h3) ?_
              obtain ⟨hout, htree, hin⟩ := hitem
              refine ⟨snoc (h1.2.trans h2.2) hitems h3.2 hout fun i hi => ?_,
                hout ▸ .copied (htree ▸ eq_of_beq hcopy) hin (hsettles.mono h3.2)⟩
              obtain rfl : i = src := by simpa [hin] using hi
              refine ⟨(hitems.avail i (by simp)).mono h3.2 fun _ ho => ho,
                .inl ((h2.2.trans h3.2).isPendingConst hconst), fun hne => (hne ?_).elim⟩
              rw [htree, eq_of_beq hcopy]
              rfl
          · exact kernel

lemma visitWithin_walks (n : Nat) : Visitor (visitWithin n) := by
  induction n with
  | zero => exact fun hg _ _ => .throw (.refl hg)
  | succ n ih => exact ih.visit

lemma schedule_rule {K : Graph → Graph → Prop} [Steps K]
    {Q : List Item → List Nat → Graph → Prop} (hk : K g g)
    (hwalk : ∀ n, g.Has x → Walks K g [] (visitWithin n x) Q) :
    Yields K g (schedule x) (fun items g' => g.Has x ∧ ∃ seen, Q items seen g') := by
  refine .bind (P := fun _ g' => g' = g ∧ g.Has x)
    (.bind_lookup hk fun t ht => .pure hk ⟨rfl, t, ht⟩) fun _ g1 _ hq => ?_
  obtain ⟨rfl, hx⟩ := hq
  refine .bind_get hk ?_
  generalize g1.limit = n
  exact .map (Yields.weaken (hwalk n hx) fun r g' _ hv => ⟨hx, r.2, hv⟩)

lemma schedule_walks (hg : depth.Sound g) : Yields depth.Keeps g (schedule x)
    (fun items g' => g.Has x ∧ ∃ seen, Visits [] [] [x] items seen g' ∧ g'.Settles items x) :=
  schedule_rule (.refl hg) fun n hx => visitWithin_walks n hg hx fun y hy => by cases hy

/-- What is known of a schedule once it is made. -/
lemma schedule_visits (hg : depth.Sound g) :
    Yields depth.Keeps g (schedule x) (fun items g' => g.Has x ∧
      ∃ seen, Visits [] [] [x] items seen g') :=
  (schedule_walks hg).weaken fun _ _ _ ⟨hx, seen, hv, _⟩ => ⟨hx, seen, hv⟩

end Reading

end LazyTensor
