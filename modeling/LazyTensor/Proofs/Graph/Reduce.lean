import LazyTensor.Proofs.Graph.Rules

/-! Reduces, in one pass or cut into two. -/
namespace LazyTensor
open Checked GraphM LazyTensor.Graph List Shape Option

namespace Graph
variable {α : Type} {cut : Cut} {old : List Int} {xs : List α} {i : Nat}

lemma bestCut_some {split : Split} {rows : List ((Int × Int × Option Int) × Nat)}
    {best : Option Cut} (h : bestCut split rows best = .ok (some cut)) :
    best = some cut ∨ ∃ old new stride, ((old, new, stride), cut.axis) ∈ rows ∧
      old ≠ new ∧
      Checked.gcd split.gcdBase old = .ok cut.divisor := by
  induction rows generalizing best with
  | nil =>
    cases h
    exact .inl rfl
  | cons row rows ih =>
    obtain ⟨⟨old, new, stride⟩, axis⟩ := row
    rw [bestCut] at h
    have later {best : Option Cut} (h : bestCut split rows best = .ok (some cut)) :
        best = some cut ∨ ∃ o n st, ((o, n, st), cut.axis) ∈
          ((old, new, stride), axis) :: rows ∧
          o ≠ n ∧ Checked.gcd split.gcdBase o = .ok cut.divisor :=
      (ih h).imp_right fun ⟨o, n, st, hmem, hrest⟩ =>
        ⟨o, n, st, mem_cons_of_mem _ hmem, hrest⟩
    split at h
    · exact later h
    · rename_i hne
      obtain ⟨divisor, hd, h⟩ := bind_eq_ok.1 h
      have chosen (c : Cut) (hc : c.divisor = divisor ∧ c.axis = axis)
          (hb : (if best.all c.beats then some c else best) = some cut) :
          best = some cut ∨ ∃ o n st, ((o, n, st), cut.axis) ∈
            ((old, new, stride), axis) :: rows ∧
            o ≠ n ∧ Checked.gcd split.gcdBase o = .ok cut.divisor := by
        split at hb
        · cases hb
          rw [hc.1, hc.2]
          exact .inr ⟨old, new, stride, mem_cons_self, hne, hd⟩
        · exact .inl hb
      exact (later h).elim (chosen _ ⟨rfl, rfl⟩) .inr

/-- A cut divides an axis that is reduced by a number that divides it. -/
lemma cut?_some {g : Graph} {x : Nat} {shape target : Shape}
    (h : g.cut? x shape target = .ok (some (old, cut))) :
    shape = ofInts old ∧ ∃ new d n, target = ofInts new ∧ old[cut.axis]? = some d ∧
      new[cut.axis]? = some n ∧ d ≠ n ∧ cut.divisor ∣ d ∧
      (0 < d → 0 < cut.divisor) := by
  unfold cut? at h
  split at h
  · rename_i split old' new' _ hold hnew
    obtain ⟨_, _, h⟩ := bind_eq_ok.1 h
    split at h
    · cases h
    obtain ⟨_, _, h⟩ := bind_eq_ok.1 h
    obtain ⟨_, _, h⟩ := bind_eq_ok.1 h
    split at h
    · cases h
    obtain ⟨t, _, h⟩ := bind_eq_ok.1 h
    obtain ⟨_, _, h⟩ := bind_eq_ok.1 h
    obtain ⟨best, hbest, h⟩ := bind_eq_ok.1 h
    cases best with
    | none => cases h
    | some best =>
      dsimp only at h
      split at h
      · cases h
      cases h
      obtain hb | ⟨d, n, st, hmem, hne, hgcd⟩ := bestCut_some hbest
      · cases hb
      rw [mem_zipIdx_iff_getElem?, getElem?_zip_eq_some] at hmem
      obtain ⟨hd, hrest⟩ := hmem
      rw [getElem?_zip_eq_some] at hrest
      have hdiv := gcd_eq_ok hgcd
      refine ⟨ints?_eq_some.1 hold, new', d, n, ints?_eq_some.1 hnew, hd, hrest.1, hne,
        ?_, fun hpos => ?_⟩
      · rw [hdiv]
        exact Int.gcd_dvd_right ..
      · rw [hdiv]
        exact_mod_cast Int.gcd_pos_of_ne_zero_right _ hpos.ne'
  · cases h

/-- The dimensions with the axis of the cut divided and these behind it. -/
def Cut.dims (cut : Cut) (old : List Int) (d : Int) (inner : List Int) : List Int :=
  old.take cut.axis ++ d.tdiv cut.divisor :: inner ++ old.drop (cut.axis + 1)

lemma cutShape_eq {inner : List Int} {s : Shape}
    (h : cutShape old cut inner = .ok s) : ∃ d, old[cut.axis]? = some d ∧
      s = ofInts (cut.dims old d inner) := by
  simp only [cutShape, bind_eq_ok, pure_eq_ok] at h
  obtain ⟨d, hd, _, houter, rfl⟩ := h
  refine ⟨d, nth_eq_ok.1 hd, ?_⟩
  unfold truncDiv at houter
  split at houter
  · cases houter
  · rw [Cut.dims, (word_eq_ok.1 houter).2]

end Graph

lemma eq_take_cons_drop {a : α} (h : xs[i]? = some a) :
    xs = xs.take i ++ a :: xs.drop (i + 1) := by
  obtain ⟨hi, rfl⟩ := List.getElem?_eq_some_iff.1 h
  rw [← drop_eq_getElem_cons hi, take_append_drop]

lemma forall₂_getElem? {α β : Type} {P : α → β → Prop} {xs : List α} {ys : List β}
    {i : Nat} {a : α} {b : β} (h : Forall₂ P xs ys) (ha : xs[i]? = some a)
    (hb : ys[i]? = some b) : P a b := by
  obtain ⟨hi, rfl⟩ := List.getElem?_eq_some_iff.1 ha
  obtain ⟨hj, rfl⟩ := List.getElem?_eq_some_iff.1 hb
  exact h.get hi hj

/-- The dimensions that a cut goes through: the divided axis, the divisor behind it, and back. -/
structure Graph.CutDims (old dt outer inner whole : List Int) : Prop where
  divided : Extents outer ∧ old.prod = outer.prod
  folded : Extents inner ∧ Reduces outer inner
  joined : Extents whole ∧ inner.prod = whole.prod
  reduces : Reduces whole dt

lemma Graph.cut_dims {old dt : List Int} {cut : Cut} {d : Int} (hold : Extents old)
    (hred : Reduces old dt) (hd : old[cut.axis]? = some d) (hn : dt[cut.axis]? = some 1)
    (hpos : 0 < cut.divisor) (hdvd : cut.divisor ∣ d) :
    CutDims old dt (cut.dims old d [cut.divisor]) (cut.dims old d [1]) (cut.dims old d []) := by
  obtain ⟨k, rfl⟩ := hdvd
  have hdold := hold _ (mem_of_getElem? hd)
  have hk : 0 < k := (mul_pos_iff_of_pos_left hpos).1 hdold.1
  have hkq : (cut.divisor * k).tdiv cut.divisor = k := Int.mul_tdiv_cancel_left k hpos.ne'
  have hle : k ≤ cut.divisor * k := by nlinarith
  have hqle : cut.divisor ≤ cut.divisor * k := by nlinarith
  have hkfit : Fits k := fits_zero.between hdold.2 hk.le hle
  have hqfit : Fits cut.divisor := fits_zero.between hdold.2 hpos.le hqle
  have hwhole : old = old.take cut.axis ++ cut.divisor * k :: old.drop (cut.axis + 1) :=
    eq_take_cons_drop hd
  have hfront : Extents (old.take cut.axis) := fun e he => hold e (mem_of_mem_take he)
  have hback : Extents (old.drop (cut.axis + 1)) := fun e he => hold e (mem_of_mem_drop he)
  have hext (mid : List Int) (hmid : Extents mid) :
      Extents (old.take cut.axis ++ k :: mid ++ old.drop (cut.axis + 1)) := by
    intro e he
    simp only [mem_append, mem_cons] at he
    obtain (he | rfl | he) | he := he
    · exact hfront e he
    · exact ⟨hk, hkfit⟩
    · exact hmid e he
    · exact hback e he
  have hfrefl (ds : List Int) : Reduces ds ds := forall₂_same.2 fun _ _ => .inl rfl
  simp only [Cut.dims, hkq]
  refine ⟨⟨hext _ (by simp [Extents, hpos, hqfit]), ?_⟩,
    ⟨hext _ (by simp [Extents, fits_one]), ?_⟩, ⟨hext _ (by simp [Extents]), by simp⟩, ?_⟩
  · conv_lhs => rw [hwhole]
    simp only [prod_append, prod_cons, prod_nil]
    ring
  · exact rel_append (rel_append (hfrefl _) (.cons (.inl rfl) (.cons (.inr rfl) .nil))) (hfrefl _)
  · rw [eq_take_cons_drop hn, append_assoc]
    exact rel_append (forall₂_take _ hred) (.cons (.inr rfl) (forall₂_drop _ hred))

namespace Reading
variable {R : Reading} {g g' : Graph} {p : Rules.Performer} {x y src : Nat} {tree : OpTree}
variable {op : ReduceOp} {target : Shape}

lemma reduceOnce_yields (hp : R.Performs p) (hg : R.Sound g) (hx : g.Has x)
    (htyped : R.typed → ∃ ds dt, g.Dims x ds ∧ target.Sized dt ∧ Reduces ds dt) :
    Yields R.Keeps g (Rules.reduceOnce p op x target) (fun id g' => g'.Has id ∧
      (∀ val, R.Denotes g' val → val id = R.reduce op target (val x)) ∧
      ∀ dt, R.typed → target.Sized dt → g'.Dims id dt) := by
  have hk : R.Keeps g g := .refl hg
  refine .bind_see hk fun shape hshape => ?_
  split
  · rename_i hsame
    obtain ⟨t, ht, rfl⟩ := shape_eq_ok.1 hshape
    have hdims : ∀ dt, R.typed → target.Sized dt → t.shape.Sized dt := by
      intro dt hty hs
      obtain ⟨ds, hp⟩ := (hg.at_id ht).plain hty
      rw [show t.shape = target from Sized.eq hp.1 hs hsame]
      exact hs
    refine .pure hk ⟨hx, fun val hv => (R.reduce_same fun hty => ?_).symm, fun dt hty hs => ?_⟩
    · obtain ⟨_, dt, _, hs, _⟩ := htyped hty
      exact ⟨dt, hs, hv.fits hty ht (hdims dt hty hs)⟩
    · exact ⟨t, ht, hdims dt hty hs⟩
  · refine .bind_get hk (.choice (P := fun y g' => R.Stands g' x y)
      (fun _ => pushMoves_yields hp hg hx) (fun _ => .pure hk (.refl hx)) fun src g1 h1 hst => ?_)
    have hk1 := Steps.stay h1
    refine .bind_see hk1 fun t _ => .bind_see hk1 fun vals _ =>
      .bind_fallible hk1 fun layout hl => ?_
    refine .bind_see hk1 fun element _ => ?_
    have hdims : R.typed → ∃ ds dt, g1.Dims src ds ∧ target.Sized dt ∧ Reduces ds dt := by
      intro hty
      obtain ⟨ds, dt, hd, hs, hr⟩ := htyped hty
      exact ⟨ds, dt, hst.dims ds hty (h1.2.dims hd), hs, hr⟩
    have hsized : R.typed → ∃ dt, target.Sized dt := by
      intro hty
      obtain ⟨_, dt, _, hs, _⟩ := hdims hty
      exact ⟨dt, hs⟩
    refine (create_yields h1.1 (.of_shape ⟨.reduce op, .shape target, [.buffer src]⟩ hl hsized
      (by simp [Op.kind]) (fun b hb => ?_) fun t hb ht => ?_)).weaken fun id g2 h2 ha => ?_
    · obtain rfl : b = src := by simpa using hb
      exact hst.has
    · refine .reduce op src (by rw [ht]) hb fun hty tx htx => ?_
      obtain ⟨ds, dt, ⟨tx', htx', hs'⟩, hs, hr⟩ := hdims hty
      cases htx.symm.trans htx'
      exact ⟨ds, dt, hs', ht ▸ hs, hr⟩
    · obtain ⟨hval, hdim⟩ := ha.reduce h2.1 rfl (h2.2.has hst.has)
      refine ⟨ha.has, fun val hv => ?_, hdim⟩
      rw [hval val hv hsized, hst.value val (hv.anti h2.2)]

lemma reduce_yields (hp : R.Performs p) (hg : R.Sound g)
    (htyped : R.typed → ∃ ds, (Call.reduce op x target).Typed R.exact g.Dims ds) :
    Yields R.Keeps g (Rules.reduce p op x target)
      (fun id g' => R.Gives g g' (.reduce op x target) id) := by
  have hk : R.Keeps g g := .refl hg
  refine .bind_lookup hk fun t ht => ?_
  refine .guard hk fun _ => .bind_see hk fun o ho => ?_
  have hx : g.Has x := ⟨t, ht⟩
  have hdims : R.typed → ∃ ds dt, g.Dims x ds ∧ target.Sized dt ∧ Reduces ds dt := by
    intro hty
    obtain ⟨dt, ds, hd, hs, hr⟩ := htyped hty
    exact ⟨ds, dt, hd, hs, hr⟩
  cases o with
  | none =>
    refine (reduceOnce_yields hp hg hx hdims).weaken fun id g1 h1 hq => ?_
    obtain ⟨hhas, hval, hd⟩ := hq
    exact ⟨hhas, hval, fun dt hty ⟨_, _, hs, _⟩ => hd dt hty hs, fun _ _ _ h => by cases h⟩
  | some o =>
    obtain ⟨old, cut⟩ := o
    obtain ⟨hshape, new, d, n, hnew, hd, hn, hne, hdvd, hpos⟩ := cut?_some ho
    have hcut : R.typed → ∃ dt, g.Dims x old ∧ target.Sized dt ∧
        (Extents old ∧ Reduces old dt ∧ dt[cut.axis]? = some 1 ∧ 0 < cut.divisor) ∧
        CutDims old dt (cut.dims old d [cut.divisor]) (cut.dims old d [1]) (cut.dims old d []) := by
      intro hty
      obtain ⟨ds, dt, ⟨t', ht', hs⟩, hsz, hr⟩ := hdims hty
      cases ht.symm.trans ht'
      obtain rfl : ds = old := ofInts_inj (hs.1.symm.trans hshape)
      obtain rfl : dt = new := ofInts_inj (hsz.1.symm.trans hnew)
      have hone : n = 1 := (forall₂_getElem? hr hd hn).resolve_left (Ne.symm hne)
      have hq := hpos (hs.2 d (mem_of_getElem? hd)).1
      exact ⟨dt, ⟨t, ht, hs⟩, hsz, ⟨hs.2, hr, hone ▸ hn, hq⟩,
        cut_dims hs.2 hr hd (hone ▸ hn) hq hdvd⟩
    refine .bind_checked hk fun outer houter => ?_
    obtain ⟨d1, hd1, rfl⟩ := cutShape_eq houter
    obtain rfl : d1 = d := some.inj (hd1.symm.trans hd)
    refine .bind (hp g (.move (.reshape _) x) hg (fun hty => ?_) fun _ => trivial)
      fun a g1 h1 ha => ?_
    · obtain ⟨dt, hx, hsz, _, hc⟩ := hcut hty
      exact ⟨_, old, hx, .of_takes ⟨rfl, hc.divided.2⟩, hc.divided.1⟩
    have hk1 := Steps.stay h1
    refine .bind_checked hk1 fun inner hinner => ?_
    obtain ⟨d2, hd2, rfl⟩ := cutShape_eq hinner
    obtain rfl : d2 = d1 := some.inj (hd2.symm.trans hd)
    refine .bind (reduceOnce_yields hp h1.1 ha.has fun hty => ?_) fun b g2 h2 hb => ?_
    · obtain ⟨dt, hx, hsz, _, hc⟩ := hcut hty
      exact ⟨_, _, ha.dims _ hty ⟨old, hx, .of_takes ⟨rfl, hc.divided.2⟩, hc.divided.1⟩,
        ⟨rfl, hc.folded.1⟩, hc.folded.2⟩
    obtain ⟨_, hbval, hbdims⟩ := hb
    have hk2 := Steps.stay h2
    refine .bind_checked hk2 fun whole hwhole => ?_
    obtain ⟨d3, hd3, rfl⟩ := cutShape_eq hwhole
    obtain rfl : d3 = d2 := some.inj (hd3.symm.trans hd)
    refine .bind (hp g2 (.move (.reshape _) b) h2.1 (fun hty => ?_) fun _ => trivial)
      fun c g3 h3 hc3 => ?_
    · obtain ⟨dt, hx, hsz, _, hc⟩ := hcut hty
      exact ⟨_, _, hbdims _ hty ⟨rfl, hc.folded.1⟩, .of_takes ⟨rfl, hc.joined.2⟩,
        hc.joined.1⟩
    refine (reduceOnce_yields hp h3.1 hc3.has fun hty => ?_).weaken fun id g4 h4 hq => ?_
    · obtain ⟨dt, hx, hsz, _, hc⟩ := hcut hty
      exact ⟨_, dt,
        hc3.dims _ hty ⟨_, hbdims _ hty ⟨rfl, hc.folded.1⟩, .of_takes ⟨rfl, hc.joined.2⟩,
        hc.joined.1⟩, hsz, hc.reduces⟩
    · obtain ⟨hhas, hval, hdim⟩ := hq
      refine ⟨hhas, fun val hv => ?_, fun dt hty ⟨_, _, hs, _⟩ => hdim dt hty hs,
        fun _ _ _ h => by cases h⟩
      have hv3 := hv.anti h4.2
      have hv2 := hv3.anti h3.2
      have hv1 := hv2.anti h2.2
      rw [hval val hv, hc3.value val hv3]
      show R.reduce op target (R.move _ (val b)) = _
      rw [hbval val hv2, ha.value val hv1]
      refine R.reduce_cut houter hinner hwhole fun hty => ?_
      obtain ⟨dt, ⟨t', ht', hs⟩, hsz, ⟨hold, hr, hone, hq⟩, _⟩ := hcut hty
      exact ⟨dt, hold, hsz, hr, (hv1.anti h1.2).fits hty ht' hs, hq, d3, hd, hone, hdvd⟩

end Reading
end LazyTensor
