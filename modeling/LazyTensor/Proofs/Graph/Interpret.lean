import LazyTensor.Proofs.Graph.Recompute

/-! Devices that evaluate trees directly. Whether a tree can be evaluated depends on the layouts and
not on what the slots hold: only an integer remainder looks at its operands first. A launch without
remainders computes a function of its inputs. -/
namespace LazyTensor
open Checked List

/-- Whenever the first computation gives a value, the second one gives a related value. -/
def Follows {α β ε : Type} (R : α → β → Prop) (x : Except ε α)
    (y : Except ε β) : Prop :=
  ∀ a, x = .ok a → ∃ b, y = .ok b ∧ R a b

namespace Follows
variable {α β γ δ ε : Type} {R : α → β → Prop} {S : γ → δ → Prop}
variable {f : α → Except ε γ} {f' : β → Except ε δ}
variable {y : Except ε β} {x : Except ε α}

lemma ok {a : α} {b : β} (h : R a b) : Follows R (.ok a : Except ε α) (.ok b) :=
  fun _ ha => ⟨b, rfl, Except.ok.inj ha ▸ h⟩

lemma error {e : ε} : Follows R (.error e) y := fun _ ha => nomatch ha

lemma bind (hx : Follows R x y) (hf : ∀ a b, R a b → Follows S (f a) (f' b)) :
    Follows S (x >>= f) (y >>= f') := by
  intro c hc
  obtain ⟨a, ha, hc⟩ := bind_eq_ok.1 hc
  obtain ⟨b, hb, hab⟩ := hx a ha
  obtain ⟨d, hd, hcd⟩ := hf a b hab c hc
  exact ⟨d, bind_eq_ok.2 ⟨b, hb, hd⟩, hcd⟩

lemma bind_same {f' : α → Except ε δ} (hf : ∀ a, x = .ok a → Follows S (f a) (f' a)) :
    Follows S (x >>= f) (x >>= f') := by
  intro c hc
  obtain ⟨a, ha, hc⟩ := bind_eq_ok.1 hc
  obtain ⟨d, hd, hcd⟩ := hf a ha c hc
  exact ⟨d, bind_eq_ok.2 ⟨a, ha, hd⟩, hcd⟩

lemma lift {x : Checked α} {y : Checked β} (h : Follows R x y) :
    Follows R (liftM x : Fallible α) (liftM y : Fallible β) := by
  intro a ha
  obtain ⟨b, hb, hab⟩ := h a (lift_eq_ok.1 ha)
  exact ⟨b, lift_eq_ok.2 hb, hab⟩

lemma mapM (hf : ∀ a b, Follows (fun _ _ => True) (f a) (f' b)) :
    ∀ {xs : List α} {ys : List β}, xs.length = ys.length →
      Follows (fun cs ds => cs.length = ds.length) (xs.mapM f) (ys.mapM f')
  | [], [], _ => ok rfl
  | x :: xs, y :: ys, h => by
    rw [mapM_cons, mapM_cons]
    refine (hf x y).bind fun c d _ => (mapM hf (Nat.succ.inj h)).bind fun cs ds hlength => ok ?_
    rw [length_cons, length_cons, hlength]

end Follows

namespace Scalar

lemma length_splitBytes (n bits : Nat) : (splitBytes n bits).length = n := by
  induction n generalizing bits with
  | zero => rfl
  | succ n ih => rw [splitBytes, length_cons, ih]

lemma length_encode (t : Scalar) (values : List Double) :
    (t.encode values).length = values.length * t.size := by
  induction values with
  | nil => simp [encode]
  | cons x xs ih =>
    have hcons : t.encode (x :: xs) = splitBytes t.size (t.toBits x) ++ t.encode xs := rfl
    rw [hcons, length_append, length_splitBytes, ih, length_cons, Nat.succ_mul, Nat.add_comm]

lemma length_decodeUpTo (t : Scalar) (n : Nat) {bytes bytes' : List UInt8}
    (h : bytes.length = bytes'.length) :
    (t.decodeUpTo n bytes).length = (t.decodeUpTo n bytes').length := by
  induction n generalizing bytes bytes' with
  | zero => rfl
  | succ n ih =>
    have hchunk : (bytes.take t.size).length = (bytes'.take t.size).length := by
      rw [length_take, length_take, h]
    have hrest : (bytes.drop t.size).length = (bytes'.drop t.size).length := by
      rw [length_drop, length_drop, h]
    simp only [decodeUpTo, hchunk]
    split
    · rw [length_cons, length_cons, ih hrest]
    · rfl

end Scalar

namespace Dense

structure Alike (x y : Dense) : Prop where
  shape : x.shape = y.shape
  element : x.element = y.element
  count : x.data.length = y.data.length

structure Env.Alike (env env' : Env) : Prop where
  device : env.device = env'.device
  vals : env.vals = env'.vals
  count : env.inputs.length = env'.inputs.length

variable {env env' : Env} {x y a b c a' b' c' : Dense}

lemma leaf_follows (henv : env.Alike env') (l : Layout) (e : Element)
    (read read' : Int → Double) :
    Follows Alike (leaf env l e read) (leaf env' l e read') := by
  unfold leaf
  rw [henv.vals]
  refine .bind_same fun l _ => ?_
  split
  · exact .error
  · next shape _ =>
    refine .bind_same fun n _ => .bind_same fun _ _ => .bind_same fun offsets _ => .ok ?_
    exact ⟨rfl, rfl, by rw [length_map, length_map]⟩

lemma boundShape_follows (henv : env.Alike env') (shape : Shape) (fault : DeviceFault) :
    Follows Eq (boundShape env shape fault) (boundShape env' shape fault) := by
  unfold boundShape
  rw [henv.vals]
  refine .bind_same fun dims _ => ?_
  split
  · exact .ok rfl
  · exact .error

lemma Alike.castTo (h : x.Alike y) (e : Element) (bitcast : Bool) :
    (x.castTo e bitcast).Alike (y.castTo e bitcast) := by
  refine ⟨h.shape, rfl, ?_⟩
  unfold Dense.castTo
  split
  · have hbytes : (x.element.encode x.data).length = (y.element.encode y.data).length := by
      rw [h.element, Element.encode, Element.encode, Scalar.length_encode,
        Scalar.length_encode, h.count]
    simp only [Element.decode, Scalar.decode]
    rw [hbytes]
    exact Scalar.length_decodeUpTo _ _ hbytes
  · simp [h.count]

lemma Alike.map1 (h : x.Alike y) (o : UnaryOp) :
    Follows Alike (x.map1 (.unary o)) (y.map1 (.unary o)) := by
  unfold Dense.map1
  rw [h.element]
  have hexec (v w : Double) : Follows (fun _ _ => True) ((Op.unary o).exec y.element [v])
      ((Op.unary o).exec y.element [w]) :=
    .ok (a := y.element.cast (o.eval v)) (b := y.element.cast (o.eval w)) trivial
  refine (Follows.mapM hexec h.count).bind fun vs ws hlength => .ok ?_
  exact ⟨h.shape, rfl, hlength⟩

lemma eval_ok {o : BinaryOp} (ho : o ≠ .mod) (int : Bool) (v w : Double) :
    ∃ r, o.eval int v w = .ok r := by
  cases o with
  | mod => exact absurd rfl ho
  | div => cases int <;> exact ⟨_, rfl⟩
  | _ => exact ⟨_, rfl⟩

lemma Alike.map2 (ha : a.Alike a') (hb : b.Alike b') {o : BinaryOp} (ho : o ≠ .mod) :
    Follows Alike (a.map2 (.binary o) b) (a'.map2 (.binary o) b') := by
  unfold Dense.map2
  rw [ha.element, hb.element]
  have hexec (v w : Double × Double) : Follows (fun _ _ => True)
      ((Op.binary o).exec (a'.element.join b'.element) [v.1, v.2])
      ((Op.binary o).exec (a'.element.join b'.element) [w.1, w.2]) := by
    obtain ⟨r, hr⟩ := eval_ok ho (a'.element.join b'.element).isInt w.1 w.2
    intro _ _
    exact ⟨_, bind_eq_ok.2 ⟨r, hr, rfl⟩, trivial⟩
  have hlength : (a.data.zip b.data).length = (a'.data.zip b'.data).length := by
    rw [length_zip, length_zip, ha.count, hb.count]
  refine (Follows.mapM hexec hlength).bind fun vs ws hlength => .ok ?_
  exact ⟨ha.shape, rfl, hlength⟩

lemma map3Data_follows (op : TernaryOp) (e : Element) {as bs cs as' bs' cs' : List Double}
    (ha : as.length = as'.length) (hb : bs.length = bs'.length) (hc : cs.length = cs'.length) :
    Follows (fun xs ys => xs.length = ys.length) (map3Data (.ternary op) e as bs cs)
      (map3Data (.ternary op) e as' bs' cs') := by
  induction as generalizing bs cs as' bs' cs' with
  | nil =>
    obtain rfl := eq_nil_of_length_eq_zero ha.symm
    exact .ok rfl
  | cons a as ih =>
    obtain ⟨a', as', rfl⟩ := exists_cons_of_length_eq_add_one ha.symm
    obtain _ | ⟨b, bs⟩ := bs
    · exact .error
    obtain ⟨b', bs', rfl⟩ := exists_cons_of_length_eq_add_one hb.symm
    obtain _ | ⟨c, cs⟩ := cs
    · exact .error
    obtain ⟨c', cs', rfl⟩ := exists_cons_of_length_eq_add_one hc.symm
    have hexec : Follows (fun _ _ => True) ((Op.ternary op).exec e [a, b, c])
        ((Op.ternary op).exec e [a', b', c']) := by
      intro _ _
      cases op <;> exact ⟨_, rfl, trivial⟩
    refine hexec.bind fun v w _ => ?_
    refine (ih (Nat.succ.inj ha) (Nat.succ.inj hb) (Nat.succ.inj hc)).bind
      fun vs ws hlength => .ok ?_
    rw [length_cons, length_cons, hlength]

lemma Alike.map3 (ha : a.Alike a') (hb : b.Alike b') (hc : c.Alike c') (o : TernaryOp) :
    Follows Alike (a.map3 o b c) (a'.map3 o b' c') := by
  unfold Dense.map3
  rw [ha.element, hb.element, hc.element]
  refine (map3Data_follows o _ ha.count hb.count hc.count).bind fun vs ws hlength => .ok ?_
  exact ⟨ha.shape, rfl, hlength⟩

lemma reduceOnto_follows (o : ReduceOp) (target : List Int) {ps : List (List Int)}
    {data data' : List Double} {acc acc' : Array Double} (hdata : data.length = data'.length)
    (hacc : acc.size = acc'.size) : Follows (fun xs ys => xs.size = ys.size)
      (reduceOnto o target ps data acc) (reduceOnto o target ps data' acc') := by
  induction ps generalizing data data' acc acc' with
  | nil => exact .ok hacc
  | cons p ps ih =>
    refine .bind_same fun place _ => ?_
    match data, data' with
    | [], [] =>
      cases acc[place]? <;> exact .error
    | v :: data, w :: data' =>
      by_cases hplace : place < acc.size
      · rw [Array.getElem?_eq_getElem hplace, Array.getElem?_eq_getElem (hacc ▸ hplace)]
        exact ih (Nat.succ.inj hdata) (by simp [hacc])
      · rw [Array.getElem?_eq_none (Nat.le_of_not_lt hplace)]
        exact .error

lemma Alike.reduce (h : x.Alike y) (o : ReduceOp) (target : List Int) :
    Follows Alike (x.reduce o target) (y.reduce o target) := by
  unfold Dense.reduce
  rw [h.shape]
  refine .bind_same fun n _ => .bind_same fun _ _ => ?_
  refine (reduceOnto_follows o target h.count rfl).bind fun acc acc' hsize => .ok ?_
  exact ⟨rfl, h.element, by simp [hsize]⟩

end Dense

namespace Source
variable {env env' : Dense.Env}

mutual

lemma dense_follows (henv : env.Alike env') {s : Source}
    (hs : ∀ t ∈ s.trees, t.op ≠ .binary .mod) :
    Follows Dense.Alike (s.dense env) (s.dense env') := by
  cases s with
  | buffer id => exact .error
  | apply op arg srcs =>
    have hsrcs : ∀ t ∈ treesAll srcs, t.op ≠ .binary .mod := fun t ht =>
      hs t (mem_cons_of_mem _ ht)
    unfold Source.dense
    split
    · split
      · exact .error
      · next i _ =>
        by_cases hi : i < env.inputs.length
        · rw [getElem?_eq_getElem hi, getElem?_eq_getElem (henv.count ▸ hi)]
          exact Dense.leaf_follows henv _ _ _ _
        · rw [getElem?_eq_none (Nat.le_of_not_lt hi)]
          exact .error
    · exact Dense.leaf_follows henv _ _ _ _
    · exact (denseNext_follows henv hsrcs).bind fun x y h => .ok (h.castTo _ _)
    · exact (denseNext_follows henv hsrcs).bind fun x y h => (h.map1 _).lift
    · next _ o =>
      have ho : o ≠ .mod := fun ho => hs _ mem_cons_self (congrArg Op.binary ho)
      split
      · exact .error
      · next s rest =>
        refine (dense_follows henv fun t ht => hsrcs t (mem_append_left _ ht)).bind
          fun a a' ha => ?_
        refine (denseNext_follows henv fun t ht => hsrcs t (mem_append_right _ ht)).bind
          fun b b' hb => ?_
        exact (ha.map2 hb ho).lift
    · split
      · exact .error
      · exact (dense_follows henv fun t ht => hsrcs t (mem_append_left _ ht)).bind
          fun _ _ _ => .error
      · next s t rest =>
        have hrest : ∀ u ∈ treesAll (t :: rest), u.op ≠ .binary .mod := fun u hu =>
          hsrcs u (mem_append_right _ hu)
        refine (dense_follows henv fun u hu => hsrcs u (mem_append_left _ hu)).bind
          fun a a' ha => ?_
        refine (dense_follows henv fun u hu => hrest u (mem_append_left _ hu)).bind
          fun b b' hb => ?_
        refine (denseNext_follows henv fun u hu => hrest u (mem_append_right _ hu)).bind
          fun c c' hc => ?_
        exact (ha.map3 hb hc _).lift
    · refine (denseNext_follows henv hsrcs).bind fun x y h => ?_
      refine (Dense.boundShape_follows henv _ _).bind fun target _ htarget => ?_
      subst htarget
      exact (h.reduce _ target).lift
    · refine (denseNext_follows henv hsrcs).bind fun x y h => ?_
      refine (Dense.boundShape_follows henv _ _).bind fun _ target htarget => ?_
      subst htarget
      refine .bind_same fun n _ => ?_
      rw [h.count]
      split
      · exact .ok ⟨rfl, h.element, h.count⟩
      · exact .error
    · exact .error

lemma denseNext_follows (henv : env.Alike env') {ss : List Source}
    (hss : ∀ t ∈ treesAll ss, t.op ≠ .binary .mod) :
    Follows Dense.Alike (denseNext env ss) (denseNext env' ss) := by
  cases ss with
  | nil => exact .error
  | cons s ss => exact dense_follows henv fun t ht => hss t (mem_append_left _ ht)

end

end Source

lemma OpTree.dense_follows {t : OpTree} {env env' : Dense.Env} (henv : env.Alike env')
    (ht : ∀ u ∈ t.trees, u.op ≠ .binary .mod) :
    Follows Dense.Alike (t.dense env) (t.dense env') :=
  Source.dense_follows (s := .ofTree t) henv ht

namespace Device
variable {d : Device} {name : String}

def Interprets (name : String) (ds : List Device) : Prop :=
  ∃ d, ds.find? (·.name == name) = some d ∧ d.engine = .interpreter

lemma interprets_register {g : Graph} (hname : d.name = name) (hd : d.engine = .interpreter) :
    Interprets name (g.register d).devices := by
  refine ⟨d, ?_, hd⟩
  have hrest : (g.devices.filter fun e => e.name != d.name).find? (·.name == name) = none := by
    simp [hname]
  rw [Graph.register, find?_append, hrest]
  simp [hname]

lemma interprets_of_any {ds : List Device}
    (h : (ds.find? (·.name == name)).any fun d => !d.isCompiled) : Interprets name ds := by
  obtain ⟨d, hd, hcompiled⟩ := (Option.any_eq_true _ _).1 h
  refine ⟨d, hd, ?_⟩
  cases hengine : d.engine with
  | interpreter => rfl
  | compiler c => simp [isCompiled, hengine] at hcompiled

end Device

namespace Launch
variable {l : Launch} {ins : List Buffer}

def env (l : Launch) (ins : List Buffer) (contents : List (List UInt8)) : Dense.Env where
  device := l.device
  inputs := ins.zipWith (fun b bytes => (b.element.decode bytes).toArray) contents
  vals := l.vals

def interpret (l : Launch) (contents : List (List UInt8)) : List UInt8 :=
  match l.buffers with
  | [] => []
  | out :: ins =>
    match l.tree.dense (l.env ins contents) with
    | .ok x => out.element.encode x.data
    | .error _ => []

lemma env_inputs {m : Memory} {ins' : List Buffer} (h : Forall₂ Buffer.Alike ins' ins) :
    (l.env ins (ins'.map m.bytes)).inputs = ins'.map fun b => (m.read b).toArray := by
  unfold env
  dsimp only
  induction h with
  | nil => rfl
  | cons hb _ ih => rw [map_cons, zipWith_cons_cons, ih, map_cons, Memory.read, hb.1]

lemma computes_interpret {out : Buffer} {contents : List (List UInt8)} {x : Dense}
    (hl : l.buffers = out :: ins) (hmod : ∀ t ∈ l.tree.trees, t.op ≠ .binary .mod)
    (hcount : contents.length = ins.length) (hx : l.tree.dense (l.env ins contents) = .ok x)
    (hfit : x.data.length ≤ out.size)
    (hfull : x.data.length * out.element.scalar.size = out.room) :
    l.Computes (Device.Interprets l.device) l.interpret := by
  intro g out' ins' hP halike hheld _
  rw [hl] at halike
  obtain ⟨⟨helement, hsize⟩, hins⟩ := forall₂_cons.1 halike
  obtain ⟨d, hd, hengine⟩ := hP
  have hname : d.name = l.device := by simpa using find?_some hd
  have henv : (l.env ins contents).Alike (l.env ins (ins'.map g.memory.bytes)) :=
    ⟨rfl, rfl, by simp [env, hcount, hins.length_eq]⟩
  obtain ⟨y, hy, hxy⟩ := OpTree.dense_follows henv hmod x hx
  have hwritten : l.interpret (ins'.map g.memory.bytes) = out'.element.encode y.data := by
    simp only [interpret, hl, hy, helement]
  have hlength : (out'.element.encode y.data).length = out'.room := by
    rw [Element.encode, Scalar.length_encode, helement, ← hxy.count, hfull, Buffer.room,
      Buffer.room, helement, hsize]
  have hinterpret : d.interpret l.tree g.memory out' ins' l.vals
      = .ok (g.memory.put out' (out'.element.encode y.data)) := by
    have hroom : ¬ out'.size < y.data.length := by
      rw [← hxy.count, hsize]
      omega
    refine bind_eq_ok.2 ⟨y, ?_, ?_⟩
    · rw [← env_inputs hins (l := l), hname]
      exact hy
    · rw [if_neg hroom, Memory.write_of_length
        (hlength.trans (hheld out' mem_cons_self).whole.symm)]
      rfl
  have hexec : d.exec l.tree g.memory out' ins' l.vals
      = (.ok (g.memory.put out' (out'.element.encode y.data)), d) := by
    rw [Device.exec, hengine, hinterpret]
  rw [hwritten]
  refine ⟨hlength, (g.register d).devices, Device.interprets_register hname hengine, ?_⟩
  have hdevice : g.device l.device = .ok d := Graph.device_eq_ok.2 hd
  unfold Graph.exec
  rw [GraphM.runOn_bind, GraphM.runOn_get]
  dsimp only
  rw [GraphM.runOn_bind, GraphM.runOn_fallible, hdevice]
  dsimp only
  rw [hexec]
  rfl

/-- A test that the launch runs to its end on an interpreting device and fills its output. -/
def runsOn (l : Launch) (name : String) : Bool :=
  match l.buffers with
  | [] => false
  | out :: ins => l.device == name && l.tree.trees.all (fun t => t.op != .binary .mod) &&
    (l.tree.dense (l.env ins (ins.map fun _ => []))).toOption.any fun x =>
      x.data.length ≤ out.size && x.data.length * out.element.scalar.size == out.room

lemma computes_of_runsOn {name : String} (h : l.runsOn name) :
    l.Computes (Device.Interprets name) l.interpret := by
  unfold runsOn at h
  split at h
  · cases h
  · next out ins hl =>
    simp only [Bool.and_eq_true, beq_iff_eq, all_eq_true, bne_iff_ne] at h
    obtain ⟨⟨rfl, hmod⟩, hdense⟩ := h
    obtain ⟨x, hx, hsize⟩ := exists_of_any hdense
    simp only [Bool.and_eq_true, decide_eq_true_eq, beq_iff_eq] at hsize
    exact computes_interpret hl hmod (length_map _) hx hsize.1 hsize.2

end Launch

end LazyTensor
