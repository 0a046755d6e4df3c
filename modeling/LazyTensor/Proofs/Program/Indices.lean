import LazyTensor.Proofs.SymInt.Names
import LazyTensor.Proofs.Texture.Locate
import LazyTensor.Proofs.View.Movement
import LazyTensor.Program.Linearize

/-! Names in the indices of a kernel. The address of an element and its condition are over the names
of the indices they are asked for; dimensions never bring a name of their own in. -/
namespace LazyTensor
open Checked SymInt List View VarMap Over Counter
variable {P : String → Prop} {idxs : List SymInt}
variable {name : String} {start : Nat}
variable {shape : Shape} {r : SymInt} {t : List SymInt × Int}

lemma SymInt.Over.flatten
    (h : ∀ i ∈ idxs, Over P i) (hr : shape.flatten idxs = .ok r) : Over P r := by
  have hterms (axes : List (SymInt × SymInt)) (ha : ∀ a ∈ axes, Over P a.1) {t}
      (ht : Shape.flattenTerms axes = .ok t) : ∀ x ∈ t.1, Over P x := by
    induction axes generalizing t with
    | nil =>
      cases ht
      simp
    | cons a axes ih =>
      simp only [Shape.flattenTerms, bind_eq_ok, pure_eq_ok] at ht
      obtain ⟨⟨ts, k⟩, hts, x, hx, _, _, rfl⟩ := ht
      have hrest := ih (fun y hy => ha y (by simp [hy])) hts
      have hown := (ha a (by simp)).times hx
      simpa [or_imp, forall_and] using ⟨hrest, hown⟩
  unfold Shape.flatten at hr
  split at hr
  · cases hr
  · obtain ⟨t, ht, hr⟩ := bind_eq_ok.1 hr
    exact total (hterms _ (fun a ha => h _ (of_mem_zip ha).1) ht) hr

namespace View
variable {v : View} {idx r : SymInt} {idxs : List SymInt}

lemma over_address (h : ∀ i ∈ idxs, Over P i) (hr : v.address idxs = .ok r) : Over P r := by
  unfold address at hr
  split at hr
  · cases hr
  obtain ⟨ts, hts, hr⟩ := bind_eq_ok.1 hr
  refine total (fun t ht => ?_) hr
  obtain rfl | ht := mem_cons.1 ht
  · exact over_num _
  · obtain ⟨a, ha, ht⟩ := exists_of_mapM hts ht
    have hmem := (mem_filter.1 ha).1
    exact (h _ (of_mem_zip (of_mem_zip hmem).1).1).times ht

lemma over_addressTerms (h : Over P idx) {axes : List (SymInt × Int)}
    (ht : addressTerms idx axes = .ok t) : ∀ x ∈ t.1, Over P x := by
  induction axes generalizing t with
  | nil =>
    cases ht
    simp
  | cons a axes ih =>
    simp only [addressTerms, bind_eq_ok] at ht
    obtain ⟨⟨ts, k⟩, hts, q, hq, ht⟩ := ht
    split at ht
    · simp only [bind_eq_ok, pure_eq_ok] at ht
      obtain ⟨p, hp, _, _, x, hx, rfl⟩ := ht
      simpa [or_imp, forall_and] using ⟨ih hts, ((h.quotient hq).remainder hp).times hx⟩
    · cases ht

lemma over_addressFlat (h : Over P idx) (hr : v.addressFlat idx = .ok r) : Over P r := by
  simp only [addressFlat, bind_eq_ok] at hr
  obtain ⟨axes, _, ts, hts, hr⟩ := hr
  have hall : ∀ t ∈ ts, Over P t := by
    cases axes with
    | nil =>
      cases hts
      simp
    | cons a axes =>
      simp only [addressOuter, bind_eq_ok] at hts
      obtain ⟨⟨_, k⟩, hinner, q, hq, hts⟩ := hts
      have hterms := over_addressTerms h hinner
      split at hts
      · simp only [bind_eq_ok, pure_eq_ok] at hts
        obtain ⟨p, hp, x, hx, rfl⟩ := hts
        simpa [or_imp, forall_and] using ⟨hterms, ((h.quotient hq).remainder hp).times hx⟩
      · simp only [bind_eq_ok, pure_eq_ok] at hts
        obtain ⟨_, rfl, x, hx, rfl⟩ := hts
        simpa [or_imp, forall_and] using ⟨hterms, (h.quotient hq).times hx⟩
  refine total (fun t ht => ?_) hr
  split at ht
  · exact hall t ht
  · obtain rfl | ht := mem_cons.1 ht
    · exact over_num _
    · exact hall t ht

lemma over_maskConditions (h : Over P idx) {axes : List (SymInt × (Int × Int))}
    (ht : maskConditions idx axes = .ok t) : ∀ x ∈ t.1, Over P x := by
  induction axes generalizing t with
  | nil =>
    cases ht
    simp
  | cons a axes ih =>
    obtain ⟨d, lo, hi⟩ := a
    simp only [maskConditions, bind_eq_ok] at ht
    obtain ⟨⟨ts, k⟩, hts, ht⟩ := ht
    split at ht
    · cases ht
    split at ht
    · simp only [bind_eq_ok, pure_eq_ok] at ht
      obtain ⟨q, hq, p, hp, l, hl, x, hx, _, rfl, _, _, rfl⟩ := ht
      have hpos := (h.quotient hq).remainder hp
      have hown : ∀ t ∈ [l, x], Over P t := by
        simpa using ⟨hpos.atLeast hl, hpos.lessThan hx⟩
      exact forall_mem_append.2 ⟨ih hts, hown⟩
    · simp only [bind_eq_ok, pure_eq_ok] at ht
      obtain ⟨own, rfl, _, _, rfl⟩ := ht
      simpa using ih hts

lemma over_valid (h : Over P idx) {given : Option SymInt} (hg : ∀ c ∈ given, Over P c)
    (hr : v.valid idx given = .ok r) : Over P r := by
  have hgiven : ∀ c ∈ given.toList, Over P c := by simpa using hg
  unfold valid at hr
  split at hr
  · cases hr
    exact conjunction hgiven
  · simp only [bind_eq_ok, pure_eq_ok] at hr
    obtain ⟨t, ht, rfl⟩ := hr
    exact conjunction (forall_mem_append.2 ⟨hgiven, over_maskConditions h ht⟩)

end View

def Access.Over (P : String → Prop) (a : Access) : Prop :=
  SymInt.Over P a.index ∧ SymInt.Over P a.valid

namespace Layout

lemma over_descend {vs : List View} {a r : Access} (h : a.Over P) (hr : descend vs a = .ok r) :
    r.Over P := by
  induction vs generalizing a with
  | nil =>
    cases hr
    exact h
  | cons v vs ih =>
    unfold descend at hr
    split at hr
    · cases hr
      exact ⟨over_num _, h.2⟩
    · simp only [bind_eq_ok] at hr
      obtain ⟨c, hc, i, hi, hr⟩ := hr
      exact ih ⟨over_addressFlat h.1 hi, over_valid h.1 (by simpa using h.2) hc⟩ hr

lemma over_access {l : Layout} {r : Access} (h : ∀ i ∈ idxs, Over P i)
    (hr : l.access idxs = .ok r) : r.Over P := by
  simp only [access, validAt, bind_eq_ok] at hr
  obtain ⟨i, hi, c, ⟨f, hf, hc⟩, hr⟩ := hr
  exact over_descend ⟨over_address h hi, over_valid (flatten h hf) (by simp) hc⟩ hr

end Layout

namespace Texture
variable {valid : SymInt} {height width : Int} {limit : Nat} {t : Texel}

lemma over_narrowed {m : VarMap SymInt} (h : Over P valid) (hm : narrowed valid = .ok m) :
    ∀ x ∈ m, Over P x.2 := by
  simp only [narrowed, bind_eq_ok] at hm
  obtain ⟨ranges, hranges, hm⟩ := hm
  have hkeys : ∀ x ∈ ranges, P x.1.name := by
    refine foldlM_induction (fun (m : VarMap (Int × Int)) => ∀ x ∈ m, P x.1.name) ?_ ?_ hranges
    · intro m c m' _ hm hstep
      unfold narrowStep at hstep
      split at hstep
      · split at hstep
        · split at hstep
          · next v _ _ range hv =>
            simp only [bind_eq_ok, pure_eq_ok] at hstep
            obtain ⟨r, _, rfl⟩ := hstep
            intro x hx
            obtain rfl | hx := mem_put hx
            · exact hm (v, range) (mem_of_value? hv)
            · exact hm x hx
          · cases hstep
            exact hm
        · cases hstep
          exact hm
      · cases hstep
        exact hm
    · refine ofEntries_induction fun x hx => ?_
      obtain ⟨v, hv, rfl⟩ := mem_map.1 hx
      exact h v (mem_vars.1 hv)
  intro x hx
  obtain ⟨y, hy, hx⟩ := exists_of_mapM hm hx
  simp only [bind_eq_ok, pure_eq_ok] at hx
  obtain ⟨e, he, rfl⟩ := hx
  exact counter (hkeys y (mem_filter.1 hy).1) he

lemma over_dropRedundant (h : Over P t.valid)
    (hr : dropRedundant height width limit t = .ok r) : Over P r := by
  simp only [dropRedundant, bind_eq_ok] at hr
  obtain ⟨n, _, hr⟩ := hr
  split at hr
  · simp only [bind_eq_ok, pure_eq_ok] at hr
    obtain ⟨_, _, _, _, _, _, rfl⟩ := hr
    split
    · exact over_num 1
    · exact h
  · cases hr
    exact h

lemma over_locate {index : SymInt} (hi : Over P index) (hv : Over P valid)
    (ht : locate height width index valid limit = .ok t) :
    Over P t.x ∧ Over P t.y ∧ Over P t.valid := by
  simp only [locate_eq, located, bind_eq_ok, pure_eq_ok] at ht
  obtain ⟨sub, hsub, _, hcond, _, hflat, q, hq, x, hx, k, _, y, hy, v₁, h₁, v₂, h₂,
    rfl⟩ := ht
  have hm : ∀ x ∈ sub, Over P x.2 := by
    obtain rfl | hsub := replacements_cases hsub
    · simp
    · exact over_narrowed hv hsub
  have hrep {e r : SymInt} (he : Over P e) (hr : replaced sub e = .ok r) : Over P r := by
    obtain rfl | hr := replaced_cases hr
    · exact he
    · exact he.replaced hm hr
  have hcond := hrep hv hcond
  have hflat := hrep hi hflat
  have hv₁ : Over P v₁ := by
    unfold bounded at h₁
    split at h₁
    · simp only [dropBounds, bind_eq_ok, pure_eq_ok] at h₁
      obtain ⟨_, hkept, rfl⟩ := h₁
      exact conjunction fun c hc => hcond.conditions c ((filterM_cases hkept).1 c hc)
    · cases h₁
      exact hcond
  have hv₂ : Over P v₂ := by
    unfold enumerated at h₂
    split at h₂
    · exact over_dropRedundant hv₁ h₂
    · cases h₂
      exact hv₁
  exact ⟨(hflat.quotient hq).remainder hx, hflat.quotient hy, hv₂⟩

end Texture

/-! The indices of a launch and of the lanes. -/

lemma over_splitIndex {whole : SymInt} {dims done idxs : List SymInt} (h : Over P whole)
    (hd : ∀ i ∈ done, Over P i) (hr : splitIndex whole dims done = .ok idxs) :
    ∀ i ∈ idxs, Over P i := by
  fun_induction splitIndex whole dims done generalizing idxs with
  | case1 whole done =>
    cases hr
    exact hd
  | case2 whole done d =>
    cases hr
    simpa using ⟨h, hd⟩
  | case3 whole done d ds _ ih =>
    simp only [bind_eq_ok] at hr
    obtain ⟨n, _, r, hr', q, hq, hr⟩ := hr
    exact ih r q (h.quotient hq) (by simpa using ⟨h.remainder hr', hd⟩) hr

lemma Counter.make_name {size : SymInt} {c : Counter} (h : make name size = .ok c) :
    c.var.name = name := by
  simp only [make, Variable.counter, bind_eq_ok, pure_eq_ok] at h
  obtain ⟨hi, _, v, hv, rfl⟩ := h
  split at hv
  · cases hv
    rfl
  · cases hv

lemma counters_named {sizes : Shape} {counters : List Counter} (hP : ∀ n : Nat, P s!"{name}{n}")
    (h : sizes.zipIdx.mapM (fun (d, i) => do
      let n ← addNat start i
      make s!"{name}{n}" d) = .ok counters) : ∀ c ∈ counters, P c.var.name := by
  intro c hmem
  obtain ⟨x, _, hx⟩ := exists_of_mapM h hmem
  obtain ⟨n, _, hc⟩ := bind_eq_ok.1 hx
  rw [make_name hc]
  exact hP n

lemma over_launchIndices {limit : Nat} {dims : Shape} {r : List SymInt × List Counter}
    (hP : ∀ n : Nat, P s!"{name}{n}") (h : launchIndices name start dims limit = .ok r) :
    (∀ i ∈ r.1, Over P i) ∧ ∀ c ∈ r.2, P c.var.name := by
  have hown {counters : List Counter} (hc : ∀ c ∈ counters, P c.var.name) :
      ∀ i ∈ counters.map Counter.index, Over P i := by
    intro i hi
    obtain ⟨c, hmem, rfl⟩ := mem_map.1 hi
    exact .of_name (hc c hmem)
  simp only [launchIndices] at h
  split at h
  · simp only [bind_eq_ok, pure_eq_ok] at h
    obtain ⟨_, _, _, rfl, counters, hcounters, whole, hwhole, _, hparts, _, rfl, rfl⟩ := h
    have hc := counters_named hP hcounters
    refine ⟨forall_mem_append.2 ⟨fun i hi => hown hc i (mem_of_mem_take hi), ?_⟩,
      fun c hmem => hc c (mem_filter.1 hmem).1⟩
    exact over_splitIndex (hown hc whole (nth_mem hwhole)) (by simp) hparts
  · simp only [bind_eq_ok, pure_eq_ok] at h
    obtain ⟨_, rfl, counters, hcounters, _, rfl, rfl⟩ := h
    have hc := counters_named hP hcounters
    exact ⟨hown hc, fun c hmem => hc c (mem_filter.1 hmem).1⟩

namespace Build

lemma over_upcastCounters {k : Kernel} (hP : P "")
    (h : upcastCounters k shape = .ok idxs) : ∀ i ∈ idxs, Over P i := by
  simp only [upcastCounters, bind_eq_ok] at h
  obtain ⟨_, _, _, _, h⟩ := h
  intro i hi
  obtain ⟨d, _, hd⟩ := exists_of_mapM h hi
  simp only [bind_eq_ok] at hd
  obtain ⟨_, _, _, _, hi⟩ := hd
  exact counter hP hi

section
variable {k : Kernel} {i : Nat} {idxs : List SymInt} (h : ∀ x ∈ idxs, Over P x)
include h

lemma over_vectorOf {d width : Nat} {first : SymInt}
    (hr : vectorOf k i idxs = .ok (some (d, width, first))) : Over P first := by
  simp only [vectorOf, bind_eq_ok] at hr
  obtain ⟨_, _, hr⟩ := hr
  split at hr
  · simp only [bind_eq_ok] at hr
    obtain ⟨x, hx, es, hes, hr⟩ := hr
    have hall := (h x (nth_mem hx)).unroll hes
    split at hr
    · cases hr
      exact hall _ (by simp)
    · cases hr
      exact hall _ (by simp)
    · cases hr
  · cases hr

lemma over_planLoad (hP : ∀ j : Nat, P s!"_uidx{j}") {plan : LoadPlan}
    (hr : planLoad k i idxs = .ok plan) : plan.access.Over P := by
  simp only [planLoad, bind_eq_ok] at hr
  obtain ⟨_, hvector, lanes, hlanes, named, hnamed, _, _, access, haccess, hr⟩ := hr
  have hlane : ∀ l ∈ lanes, ∀ v ∈ l, P v.name := by
    intro l hl v hv
    obtain ⟨x, _, hx⟩ := exists_of_mapM hlanes hl
    cases hv
    unfold laneCounter at hx
    cases hu : x.1.unrolled? with
    | none =>
      rw [hu] at hx
      cases hx
    | some w =>
      rw [hu] at hx
      obtain ⟨u, hu, hx⟩ := map_eq_ok.1 hx
      cases hx
      simp only [Variable.counter] at hu
      split at hu
      · cases hu
        exact hP x.2
      · cases hu
  have hall : ∀ x ∈ named, Over P x := by
    intro x hx
    obtain ⟨⟨y, l⟩, hy, hx⟩ := exists_of_mapM hnamed hx
    have hmem := of_mem_zip hy
    unfold nameLanes at hx
    split at hx
    · next v w _ hl =>
      refine (h y hmem.1).replaced (fun z hz => ?_) hx
      cases mem_singleton.1 hz
      exact .of_name (hlane l hmem.2 w hl)
    · cases hx
      exact h y hmem.1
  have hplain := Layout.over_access hall haccess
  split at hr
  · cases hr
    exact hplain
  · next d width first =>
    split at hr
    · simp only [bind_eq_ok] at hr
      obtain ⟨_, hgrouped, _, _, hr⟩ := hr
      split at hr
      · cases hr
        refine Layout.over_access (fun x hx => ?_) hgrouped
        obtain hx | rfl := mem_or_eq_of_mem_set hx
        · exact hall x hx
        · exact over_vectorOf h hvector
      · cases hr
        exact hplain
    · cases hr

end

end Build

end LazyTensor
