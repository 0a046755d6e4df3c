import LazyTensor.Proofs.Graph.Reduce

/-! Where a movement takes place: on the leaves of the tree that it moves, as a reshape of the base,
as a view of the base, or joined with the movement before it. -/
namespace LazyTensor
open Checked GraphM LazyTensor.Graph Source Option

lemma Call.Typed.imp {exact : Prop} {known known' : Nat → List Int → Prop} {call : Call}
    {ds : List Int} (h : call.Typed exact known ds) (hk : ∀ {x ds}, known x ds → known' x ds) :
    call.Typed exact known' ds := by
  cases call with
  | elementwise op _ arg => exact fun y hy => hk (h y hy)
  | reduce op y s | move m y =>
    obtain ⟨es, hd, hrest⟩ := h
    exact ⟨es, hk hd, hrest⟩

namespace Reading
variable {R : Reading} {g g' : Graph} {p : Rules.Performer} {x : Nat} {m : Movement}
variable {root src : Nat} {t : Tensor} {layout : Layout} {joined : Movement}

lemma rootWithin_base {n : Nat} (hg : R.Sound g) (ht : g.find? x = some t)
    (h : g.rootWithin false n x = .ok root) :
    root = t.base.getD x ∨ root = x ∧ g.isRealized x = .ok true := by
  induction n generalizing x t with
  | zero => cases h
  | succ n ih =>
    obtain ⟨o, ho, h⟩ := bind_eq_ok.1 h
    split at h
    · rename_i mo arg src rest
      obtain ⟨t', ht', hop, hat, hmade⟩ := made_of_pending hg ho
      cases ht.symm.trans ht'
      obtain ⟨hpend, _⟩ := pending?_eq_ok.1 ho
      obtain ⟨m', y, b, heq, hb, hsrc, _⟩ := hmade.of_movement rfl
      have hy : src = y := by
        have := congrArg OpTree.srcs heq
        simp at this
        exact this.1
      subst hy
      obtain ⟨_, tx, htx⟩ := hat.sources _ hop src (by simp)
      obtain ⟨hbase, _⟩ := hsrc tx htx
      obtain rfl | ⟨rfl, hr⟩ := ih htx h
      · rw [hb, hbase]
        exact .inl rfl
      · obtain ⟨t1, tb1, ht1, htb1, hr1⟩ := isRealized_eq_ok.1 hr
        obtain ⟨t2, tb2, ht2, htb2, hr2⟩ := isRealized_eq_ok.1 hpend
        cases htx.symm.trans ht1
        cases ht.symm.trans ht2
        rw [hbase] at htb1
        rw [hb, getD_some] at htb2
        cases htb1.symm.trans htb2
        rw [hr1] at hr2
        cases hr2
    · obtain ⟨ts, _, h⟩ := bind_eq_ok.1 h
      obtain rfl := pure_eq_ok.1 h
      obtain ⟨t', ht', hop, hat, hmade⟩ := made_of_pending hg ho
      cases ht.symm.trans ht'
      obtain ⟨_, _, _, hb, _⟩ := hmade.of_load rfl
      exact .inl (by rw [hb]; rfl)
    · rename_i hnomove _
      obtain rfl := pure_eq_ok.1 h
      cases hb : t.base with
      | none => exact .inl rfl
      | some b =>
        refine .inr ⟨rfl, ?_⟩
        have hat := hg.at_id ht
        cases hop : t.op with
        | none => exact hat.dropped hop
        | some tree =>
          have hmade := hat.made tree hop
          cases hmade with
          | elementwise _ hb' | reduce _ _ _ hb' | load _ _ _ _ hb' => simp [hb] at hb'
          | move m' y b' heq =>
            obtain ⟨_, tb, htb, _⟩ := hat.base b hb
            cases hr : tb.realized.isSome with
            | true => exact isRealized_eq_ok.2 ⟨t, tb, ht, by rw [hb]; exact htb, hr⟩
            | false =>
              have hpend : g.pending? x = .ok (some tree) := pending?_eq_ok.2
                ⟨isRealized_eq_ok.2 ⟨t, tb, ht, by rw [hb]; exact htb, hr⟩, t, ht, hop⟩
              have hsome : o = some (m'.tree y) := heq ▸ Except.ok.inj (ho.symm.trans hpend)
              exact (hnomove _ _ _ _ hsome).elim

/-- The base of a movement that ends contiguous, if it may be reshaped instead. -/
structure Rooted (R : Reading) (g : Graph) (t : Tensor) (layout : Layout) (root : Nat) : Prop where
  base : t.base = some root
  contiguous : layout.contiguous = true
  dims : ∀ ds ds', g.Dims root ds → layout.shape.Sized ds' → ds.prod = ds'.prod

lemma rooted_of_see (hg : R.Sound g) (ht : g.find? x = some t) (hcontig : layout.contiguous = true)
    (h : (do
      let root ← g.movementRoot x false
      let r ← g.tensor root
      if root != x && r.layout.contiguous then
        return if (← layout.shape.product) == (← r.shape.product) then some root else none
      else pure none : Checked (Option Nat)) = .ok (some root)) : Rooted R g t layout root := by
  obtain ⟨r', hr', h⟩ := bind_eq_ok.1 h
  obtain ⟨tr, htr, h⟩ := bind_eq_ok.1 h
  split at h
  · rename_i hcond
    simp only [Bool.and_eq_true, bne_iff_ne] at hcond
    obtain ⟨new, hnew, h⟩ := bind_eq_ok.1 h
    obtain ⟨old, hold, h⟩ := bind_eq_ok.1 h
    have hsome := pure_eq_ok.1 h
    split at hsome
    · rename_i hsize
      cases hsome
      refine ⟨?_, hcontig, fun ds ds' hd hs' => ?_⟩
      · obtain hb | ⟨hx, _⟩ := rootWithin_base hg ht hr'
        · cases hbase : t.base with
          | none => exact (hcond.1 (by rw [hb, hbase]; rfl)).elim
          | some b =>
            rw [hb, hbase]
            rfl
        · exact (hcond.1 hx).elim
      · obtain ⟨tr', htr', hs⟩ := hd
        cases (tensor_eq_ok.1 htr).symm.trans htr'
        rw [hs'.1] at hnew
        rw [hs.1] at hold
        rw [Shape.product_ofInts hnew, Shape.product_ofInts hold] at hsize
        exact (SymInt.eq_of_num_beq hsize).symm
    · cases hsome
  · cases h

lemma typed_move {ds' : List Int} (hg : R.Sound g) (hty : R.typed) (ht : g.find? x = some t)
    (hl : m.apply t.layout = .ok layout) (h : (Call.move m x).Typed R.exact g.Dims ds') :
    ∃ ds, g.Dims x ds ∧ t.layout.Suits R.exact ds ∧ m.Suits R.exact ds ds' ∧
      layout.Suits R.exact ds' := by
  obtain ⟨ds, hd, hm, he⟩ := h
  obtain ⟨t', ht', hs⟩ := id hd
  cases ht.symm.trans ht'
  obtain ⟨es, hplain⟩ := (hg.at_id ht).plain hty
  cases hplain.1.unique hs
  exact ⟨ds, hd, hplain, hm, hplain.apply hm he hl⟩

lemma Fresh.view {element : Element} {vals : Bindings} (hg : R.Sound g)
    (ht : g.find? x = some t) (hl : m.apply t.layout = .ok layout)
    (htakes : R.typed → ∃ ds ds', t.layout.Suits R.exact ds ∧ layout.Suits R.exact ds' ∧
      m.Suits R.exact ds ds') :
    Fresh R g { device := t.device, layout, kind := (m.tree x).op.kind, op := some (m.tree x)
                element, base := some (t.base.getD x)
                vals := if (some (t.base.getD x)).isSome then [] else vals } where
  made tree htree := by
    cases htree
    refine .move m x _ rfl rfl fun tx htx => ?_
    cases ht.symm.trans htx
    refine ⟨rfl, hl, fun hty => ?_⟩
    obtain ⟨ds, ds', hplain, hplain', hm⟩ := htakes hty
    exact ⟨ds, ds', hplain.1, hplain'.1, hm⟩
  kind tree htree := by
    cases htree
    rfl
  sources tree htree b hb := by
    cases htree
    obtain rfl : b = x := by
      simpa using hb
    exact ⟨t, ht⟩
  movement := ⟨fun _ => rfl, fun _ => rfl⟩
  base b hb := by
    cases hb
    exact hg.base ht
  loaded h := by cases h
  pending _ := rfl
  whole h := by cases h
  plain hty := by
    obtain ⟨ds, ds', _, hplain', _⟩ := htakes hty
    exact ⟨ds', hplain'⟩
  views := rfl
  children := rfl

lemma place_yields (hp : R.Performs p) (hg : R.Sound g)
    (htyped : R.typed → ∃ ds, (Call.move m x).Typed R.exact g.Dims ds) :
    Yields R.Keeps g (Rules.place p x m) (fun id g' => R.Gives g g' (.move m x) id) := by
  have hk : R.Keeps g g := .refl hg
  refine .bind_see hk fun t ht => .bind_fallible hk fun layout hl => .bind_see hk fun realized hr =>
    .bind_get hk ?_
  have ht := tensor_eq_ok.1 ht
  dsimp only
  split
  · rename_i op hinner
    obtain ⟨hop, hcond⟩ := filter_eq_some_iff.1 hinner
    simp only [Bool.and_eq_true, decide_eq_true_eq, Bool.not_eq_true'] at hcond
    obtain ⟨⟨⟨⟨_, hkind⟩, rfl⟩, _⟩, _⟩ := hcond
    have he := (hg.at_id ht).elementwise hop hkind
    obtain ⟨hlive, hval, hfull, hdims⟩ :=
      pending_elementwise hg (pending?_eq_ok.2 ⟨hr, t, ht, hop⟩) he
    refine (pushInto_yields hp (.ofTree op) hg hlive hfull fun hty => ?_).weaken
      fun id g1 h1 hq => ?_
    · obtain ⟨ds', ds, hd, hm, he'⟩ := htyped hty
      obtain ⟨_, _, hs⟩ := id hd
      exact ⟨ds, ds', hs.2, hdims ds hty hd, ds', hm, he', rfl⟩
    · refine ⟨hq.has, fun val hv => ?_, fun ds' hty h => ?_, fun _ _ _ h => by cases h⟩
      · rw [hq.value val hv]
        change R.move m (R.source val (.ofTree op)) = R.move m (val x)
        rw [hval val (hv.anti h1.2)]
      · obtain ⟨ds, hd, hm, he'⟩ := h
        exact hq.dims ds ds' hty (hdims ds hty hd) ⟨ds', hm, he', rfl⟩
  · refine .choice (P := fun root g' => g' = g ∧ ∀ r, root = some r → Rooted R g t layout r)
      (fun hc => ?_) (fun _ => .pure hk ⟨rfl, by simp⟩) fun root g1 _ hroot => ?_
    · simp only [Bool.and_eq_true, Bool.not_eq_true'] at hc
      exact .see hk fun root hroot =>
        ⟨rfl, fun r hr' => rooted_of_see hg ht hc.2 (hr' ▸ hroot)⟩
    obtain ⟨rfl, hroot⟩ := hroot
    cases root with
    | some root =>
      have hrt := hroot root rfl
      obtain ⟨_, tr, htr, _, _⟩ := (hg.at_id ht).base root hrt.base
      have hdims : ∀ ds', R.typed → (Call.move m x).Typed R.exact g1.Dims ds' →
          ∃ bs, g1.Dims root bs ∧
          layout.Suits R.exact ds' ∧ bs.prod = ds'.prod := by
        intro ds' hty h
        obtain ⟨ds, hd, _, hm, hplain⟩ := typed_move hg hty ht hl h
        obtain ⟨bs, hbs⟩ := (hg.at_id htr).plain hty
        have hroot' : g1.Dims root bs := ⟨tr, htr, hbs.1⟩
        exact ⟨bs, hroot', hplain, hrt.dims bs ds' hroot' hplain.1⟩
      refine hp.instead (c := .move (.reshape layout.shape) root) hg .intro htyped
        (fun hty ds' h => ?_) fun val hv => ?_
      · obtain ⟨bs, hd, hplain, hprod⟩ := hdims ds' hty h
        exact ⟨bs, hd, .of_takes ⟨hplain.1.1, hprod⟩, hplain.1.2⟩
      · change R.move (.reshape layout.shape) (val root) = R.move m (val x)
        rw [hv.view ht hrt.base, ← R.look_move hl, R.look_contiguous hrt.contiguous]
        · intro hty
          obtain ⟨ds', h⟩ := htyped hty
          obtain ⟨bs, ⟨tb, htb, hs⟩, hplain, hprod⟩ := hdims ds' hty h
          exact ⟨ds', bs, hplain, hv.fits hty htb hs, hs.2, hprod⟩
        · intro hty
          obtain ⟨ds', h⟩ := htyped hty
          obtain ⟨ds, _, hplain, hm, hplain'⟩ := typed_move hg hty ht hl h
          exact ⟨ds, ds', hplain, hm, hplain'.1.2⟩
    | none =>
      refine .bind_see hk fun base hbase => .bind_see hk fun vals _ =>
        .bind_see hk fun element _ => ?_
      obtain ⟨t', ht', rfl⟩ := baseOf_eq_ok.1 hbase
      cases ht.symm.trans ht'
      have hx : g1.Has x := ⟨t, ht⟩
      have htakes : R.typed → ∃ ds ds', t.layout.Suits R.exact ds ∧
          layout.Suits R.exact ds' ∧ m.Suits R.exact ds ds' := by
        intro hty
        obtain ⟨ds', h⟩ := htyped hty
        obtain ⟨ds, _, hplain, hm, hplain'⟩ := typed_move hg hty ht hl h
        exact ⟨ds, ds', hplain, hplain', hm⟩
      refine (create_yields hg (.view hg ht hl htakes)).weaken fun id g2 h2 ha => ?_
      have hmoved := ha.move h2.1 (h2.2.has hx) fun hty => by
        obtain ⟨ds', ds, hd, hm, _⟩ := htyped hty
        exact ⟨ds, ds', h2.2.dims hd, hm⟩
      refine ⟨ha.has, hmoved.1, fun ds' hty h => ?_, fun _ _ _ h => by cases h⟩
      obtain ⟨ds, hd, hm, _⟩ := h
      exact hmoved.2 ds ds' hty (h2.2.dims hd) hm

structure Moved (R : Reading) (g : Graph) (x src : Nat) (m : Movement) : Prop where
  has : g.Has src
  source : g.Has x
  value : ∀ val, R.Denotes g val → val x = R.move m (val src)
  dims : R.typed → ∃ ds ds', g.Dims src ds ∧ g.Dims x ds' ∧ m.Suits R.exact ds ds'

lemma Moved.mono (h : Moved R g x src m) (hk : g.Extends g') : Moved R g' x src m where
  has := hk.has h.has
  source := hk.has h.source
  value val hv := h.value val (hv.anti hk)
  dims hty := by
    obtain ⟨ds, ds', hs, hx, hm⟩ := h.dims hty
    exact ⟨ds, ds', hk.dims hs, hk.dims hx, hm⟩

lemma moved_of_pending (hg : R.Sound g) (h : g.pendingMove? x = .ok (some (src, m))) :
    Moved R g x src m := by
  obtain ⟨hpend, hsrc, _, hval, hdims⟩ := pendingMove_spec hg h
  obtain ⟨t, ht, _⟩ := made_of_pending hg hpend
  exact ⟨hsrc, ⟨t, ht⟩, hval, hdims⟩

lemma Gives.sooner {g'' : Graph} {call : Call} {id : Nat} (h : R.Gives g' g'' call id)
    (hk : g.Extends g') : R.Gives g g'' call id :=
  ⟨h.has, h.value, fun ds hty ht => h.dims ds hty (ht.imp hk.dims), h.srcs⟩

lemma joined_yields {first : Movement} (hp : R.Performs p) (hg : R.Sound g)
    (hx : Moved R g x src first) (hjoin : first.merge m = .ok (some joined))
    (htyped : R.typed → ∃ ds, (Call.move m x).Typed R.exact g.Dims ds) :
    Yields R.Keeps g (p (.move joined src)) (fun id g' => R.Gives g g' (.move m x) id) := by
  have hboth : R.typed → ∀ ds'', (Call.move m x).Typed R.exact g.Dims ds'' →
      ∃ ds ds', g.Dims src ds ∧
      Extents ds' ∧ first.Suits R.exact ds ds' ∧ m.Suits R.exact ds' ds'' ∧ Extents ds'' := by
    intro hty ds'' ⟨ds', hd', hm, he⟩
    obtain ⟨ds, es, hs, hes, hf⟩ := hx.dims hty
    cases hes.unique hd'
    obtain ⟨_, _, hsz⟩ := hes
    exact ⟨ds, ds', hs, hsz.2, hf, hm, he⟩
  refine hp.instead hg .intro htyped (fun hty ds'' h => ?_) fun val hv => ?_
  · obtain ⟨ds, ds', hd, _, hf, hm, he⟩ := hboth hty ds'' h
    exact ⟨ds, hd, .merge hjoin hf hm, he⟩
  · rw [hx.value val hv]
    refine R.move_merge hjoin fun hty => ?_
    obtain ⟨ds'', h⟩ := htyped hty
    obtain ⟨ds, ds', ⟨ts, hts, hsz⟩, he', hf, hm, _⟩ := hboth hty ds'' h
    exact ⟨ds, ds', ds'', hsz.2, he', hf, hm, hv.fits hty hts hsz⟩

lemma merged?_some (h : g.merged? x m = .ok (some (src, joined))) :
    ∃ first, g.pendingMove? x = .ok (some (src, first)) ∧
      first.merge m = .ok (some joined) := by
  simp only [merged?, bind_eq_ok] at h
  obtain ⟨_, _, h⟩ := h
  split at h
  · cases h
  obtain ⟨o, ho, h⟩ := bind_eq_ok.1 h
  cases o with
  | none => cases h
  | some o =>
    obtain ⟨_, first⟩ := o
    simp only [bind_eq_ok, pure_eq_ok] at h
    obtain ⟨o, hjoin, h⟩ := h
    obtain ⟨m', rfl, heq⟩ := map_eq_some_iff.1 h
    cases heq
    exact ⟨first, ho, hjoin⟩

end Reading

end LazyTensor
