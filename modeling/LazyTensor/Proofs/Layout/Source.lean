import LazyTensor.Proofs.Layout.Resize
import LazyTensor.Proofs.Layout.RowMajor

/-! Where the elements of a moved shape come from. -/
namespace LazyTensor
open Checked SymInt List Shape View Option
variable {β : Type} {ranges : List (Int × Int)}

def Shape.squash (ds p : List Int) : List Int :=
  List.zipWith (fun d i => if d = 1 then 0 else i) ds p

def Movement.source (m : Movement) (ds p : List Int) : List Int :=
  match m with
  | reshape target => Shape.place ds (Shape.rank (target.ints?.getD []) p)
  | permute axes => (List.range ds.length).map (fun i => p.getD (axes.idxOf i) 0)
  | expand _ => Shape.squash ds p
  | shrink ranges => List.zipWith (fun r i => r.1 + i) ranges p
  | pad _ | stride _ => p

lemma Shape.ints?_ofInts (ds : List Int) : (ofInts ds).ints? = some ds :=
  ints?_eq_some.2 rfl

lemma Shape.filter_ofInts (ds : List Int) : (ofInts ds).filter (fun d => !d.is 1) =
    ofInts (ds.filter (fun d => d ≠ 1)) := by
  rw [ofInts, List.filter_map]
  congr 1
  exact filter_congr fun d _ => by simp [SymInt.is, num?]

section
variable {ds p strides : List Int} (hp : Inside ds p)
include hp

lemma Shape.rowMajor_rank (h : (ofInts ds).rowMajor? = .ok (some strides)) :
    (zipWith (· * ·) p strides).sum = rank ds p := by
  simp only [rowMajor?, bind_eq_ok, pure_eq_ok, map_eq_some_iff] at h
  obtain ⟨_, hwalk, _, rfl, rfl⟩ := h
  exact (Layout.strideWalk_rank hwalk).2 p hp

lemma View.Flat.rank_eq {v : View} (hf : v.Flat) (hs : v.shape = ofInts ds)
    (hc : v.contiguous = true) : v.offset + (zipWith (· * ·) p v.strides).sum = rank ds p := by
  obtain ⟨ho, hrows⟩ := hf hc
  rw [ho, zero_add, rowMajor_rank hp (hs ▸ hrows)]

end

namespace Layout
variable {ds ds' p strides : List Int}
variable {α : Type} {axes : List Nat}
variable {m : Mask}

/-! Sums over moved axes. -/

lemma zipWith_axes (hn : axes.Nodup) (h : p.length = axes.length) (f : Int → α → β)
    (g : Nat → α) :
    zipWith f p (axes.map g) = axes.map (fun i => f (p.getD (axes.idxOf i) 0) (g i)) := by
  refine ext_getElem (by simp [h]) fun k hk _ => ?_
  simp only [length_zipWith, length_map, h, min_self] at hk
  simp [hn.idxOf_getElem, h, hk]

lemma sum_permute (hp : axes.Perm (range ds.length)) (h : p.length = ds.length)
    (hs : strides.length = ds.length) :
    (zipWith (· * ·) p (axes.map (fun i => strides.getD i 0))).sum =
      (zipWith (· * ·) ((Movement.permute axes).source ds p) strides).sum := by
  have hn : axes.Nodup := hp.nodup_iff.2 nodup_range
  have hlen : axes.length = ds.length := by simpa using hp.length_eq
  rw [zipWith_axes hn (h.trans hlen.symm), (hp.map _).sum_eq, Movement.source]
  conv_rhs => rw [← map_getD_range strides 0, hs]
  rw [zipWith_map, zipWith_self]

lemma sum_expand (hp : Inside ds' p) (hlen : ds.length = ds'.length)
    (h : (((ofInts ds).zip (ofInts ds')).zip strides).all
      (fun ((d, t), st) => d == t || (d.is 1 && st == 0)) = true) :
    (zipWith (· * ·) p strides).sum = (zipWith (· * ·) (squash ds p) strides).sum := by
  induction hp generalizing ds strides with
  | nil => simp [squash]
  | @cons i t is ts hi _ ih =>
    cases ds with
    | nil => cases hlen
    | cons d ds =>
      cases strides with
      | nil => simp
      | cons st strides =>
        simp only [ofInts, map_cons, zip_cons_cons, all_cons, Bool.and_eq_true] at h
        rw [squash, zipWith_cons_cons, zipWith_cons_cons, zipWith_cons_cons,
          sum_cons, sum_cons, ih (by simpa using hlen) h.2, squash]
        congr 1
        split
        · rename_i h1
          have h1' := h.1
          simp only [Bool.or_eq_true, Bool.and_eq_true, beq_iff_eq] at h1'
          obtain heq | ⟨_, rfl⟩ := h1'
          · have := eq_of_num_beq heq
            have hi0 : i = 0 := by omega
            rw [hi0]
          · simp
        · rfl

lemma sum_shrink (h : ranges.length = strides.length) (hp : p.length = ranges.length) :
    ((strides.zip ranges).map (fun x => x.1 * x.2.1)).sum + (zipWith (· * ·) p strides).sum =
      (zipWith (· * ·) (zipWith (fun r i => r.1 + i) ranges p) strides).sum := by
  induction ranges generalizing strides p with
  | nil => cases strides <;> simp_all
  | cons r ranges ih =>
    cases strides with
    | nil => cases h
    | cons st strides =>
      cases p with
      | nil => cases hp
      | cons i p =>
        have hrest := ih (show ranges.length = strides.length by simpa using h)
          (show p.length = _ by simpa using hp)
        simp only [zip_cons_cons, map_cons, sum_cons, zipWith_cons_cons, ← hrest]
        ring

/-! Units. -/

lemma keepNonUnit_cons (d : Int) (x : α) (ds : List Int) (xs : List α) :
    keepNonUnit (ofInts (d :: ds)) (x :: xs) =
      if d = 1 then keepNonUnit (ofInts ds) xs
      else x :: keepNonUnit (ofInts ds) xs := by
  by_cases h : d = 1
  · simp [keepNonUnit, ofInts, h, is, num?]
  · simp [keepNonUnit, ofInts, h, is, num?]

lemma keepNonUnit_place (ds : List Int) (x : Int) : keepNonUnit (ofInts ds) (place ds x) =
      place (ds.filter (fun d => d ≠ 1)) x := by
  induction ds with
  | nil => rfl
  | cons d ds ih =>
    have hprod (ds : List Int) : (ds.filter (fun d => d ≠ 1)).prod = ds.prod := by
      induction ds with
      | nil => rfl
      | cons d ds ih =>
        by_cases h : d = 1
        · simp [h, ← ih]
        · simp [h, ← ih]
    rw [place, keepNonUnit_cons, ih]
    by_cases h : d = 1
    · simp [h]
    · rw [if_neg h, filter_cons_of_pos (by simpa using h), place, hprod]

lemma sum_filter_ne_zero (xs : List Int) : (xs.filter (· ≠ 0)).sum = xs.sum := by
  induction xs with
  | nil => rfl
  | cons x xs ih =>
    by_cases h : x = 0
    · rw [filter_cons_of_neg (by simpa using h), ih, sum_cons, h, zero_add]
    · rw [filter_cons_of_pos (by simpa using h), sum_cons, ih, sum_cons]

lemma products_keepNonUnit (hp : Inside ds p) (h : strides.length = ds.length) :
    (zipWith (· * ·) (keepNonUnit (ofInts ds) p) (keepNonUnit (ofInts ds) strides)).filter
      (· ≠ 0) =
      (zipWith (· * ·) p strides).filter (· ≠ 0) := by
  induction hp generalizing strides with
  | nil => rfl
  | @cons i d is ds hi _ ih =>
    cases strides with
    | nil => cases h
    | cons st strides =>
      have hrest := ih (show strides.length = ds.length by simpa using h)
      rw [keepNonUnit_cons, keepNonUnit_cons, zipWith_cons_cons, filter_cons, ← hrest]
      by_cases h1 : d = 1
      · have hi0 : i = 0 := by omega
        simp [h1, hi0]
      · rw [if_neg h1, if_neg h1, zipWith_cons_cons, filter_cons]

lemma products_dealNonUnit (hp : Inside ds p) (xs : List Int) :
    (zipWith (· * ·) p (dealNonUnit 0 0 (ofInts ds) xs)).filter (· ≠ 0) =
      (zipWith (· * ·) (keepNonUnit (ofInts ds) p) xs).filter (· ≠ 0) := by
  induction hp generalizing xs with
  | nil => rfl
  | @cons i d is ds hi _ ih =>
    have hds : ofInts (d :: ds) = .num d :: ofInts ds := rfl
    rw [keepNonUnit_cons, hds, dealNonUnit.eq_def]
    by_cases h1 : d = 1
    · have hi0 : i = 0 := by omega
      simpa [h1, hi0, SymInt.is, num?] using ih xs
    · rw [if_neg h1]
      have h1' : (num d).is 1 = false := by simpa [SymInt.is, num?] using h1
      cases xs with
      | nil => simpa [h1'] using ih []
      | cons x xs =>
        simp only [h1', Bool.false_eq_true, if_false, zipWith_cons_cons, filter_cons, ih xs]

/-! Masks over moved axes. -/

lemma keepNonUnit_length {xs : List α} (h : xs.length = ds.length) :
    (keepNonUnit (ofInts ds) xs).length = (ds.filter (fun d => d ≠ 1)).length := by
  induction ds generalizing xs with
  | nil => simp [keepNonUnit, ofInts]
  | cons d ds ih =>
    cases xs with
    | nil => cases h
    | cons x xs =>
      rw [keepNonUnit_cons]
      by_cases h1 : d = 1
      · simpa [h1] using ih (Nat.succ.inj h)
      · simpa [h1] using ih (Nat.succ.inj h)

lemma passes_keepNonUnit (hp : Inside ds p) (hm : m.length = ds.length)
    (h : ((ofInts ds).zip m).any (fun x => x.1.is 1 && x.2 != (0, 1)) = false) :
    passes p m = passes (keepNonUnit (ofInts ds) p) (keepNonUnit (ofInts ds) m) := by
  induction hp generalizing m with
  | nil =>
    obtain rfl := eq_nil_of_length_eq_zero hm
    rfl
  | @cons i d is ds hi _ ih =>
    cases m with
    | nil => cases hm
    | cons r m =>
      simp only [ofInts, map_cons, zip_cons_cons, any_cons, Bool.or_eq_false_iff] at h
      have hrest := ih (Nat.succ.inj hm) h.2
      rw [keepNonUnit_cons, keepNonUnit_cons]
      by_cases h1 : d = 1
      · have hr : r = (0, 1) := by simpa [h1, SymInt.is, num?] using h.1
        rw [if_pos h1, if_pos h1, ← hrest, hr]
        have hi' : (0 ≤ i && i < 1) = true := by simpa [h1] using hi
        simp [passes, hi']
      · rw [if_neg h1, if_neg h1]
        simp only [passes, zip_cons_cons, all_cons] at hrest ⊢
        rw [hrest]

lemma passes_dealNonUnit (hp : Inside ds p) {xs : Mask}
    (h : xs.length = (ds.filter (fun d => d ≠ 1)).length) :
    passes p (dealNonUnit (0, 1) (0, 0) (ofInts ds) xs) =
      passes (keepNonUnit (ofInts ds) p) xs := by
  induction hp generalizing xs with
  | nil =>
    obtain rfl := eq_nil_of_length_eq_zero h
    rfl
  | @cons i d is ds hi _ ih =>
    rw [keepNonUnit_cons]
    by_cases h1 : d = 1
    · have hrest := @ih xs (by simpa [h1] using h)
      have hi' : (0 ≤ i && i < 1) = true := by simpa [h1] using hi
      rw [if_pos h1, ← hrest]
      simp [passes, dealNonUnit, ofInts, h1, SymInt.is, num?, hi']
    · have h1' : (num d).is 1 = false := by simpa [SymInt.is, num?] using h1
      cases xs with
      | nil => simp [h1] at h
      | cons r xs =>
        have hrest := @ih xs (by simpa [h1] using h)
        rw [if_neg h1]
        simp only [passes, ofInts, map_cons, dealNonUnit, h1', Bool.false_eq_true,
          if_false, zip_cons_cons, all_cons] at hrest ⊢
        rw [hrest]

lemma passes_of_hidden (hp : Inside ds p)
    (hh : ∀ x ∈ (ofInts ds).zip m, x.1.is 1 = true → x.2.1 ≤ 0 → 0 < x.2.2 →
      x.2 = (0, 1))
    (h : ((ofInts ds).zip m).any (fun x => x.1.is 1 && x.2 != (0, 1)) = true) :
    passes p m = false := by
  induction hp generalizing m with
  | nil => cases h
  | @cons i d is ds hi _ ih =>
    cases m with
    | nil => cases h
    | cons r m =>
      simp only [ofInts, map_cons, zip_cons_cons, any_cons, Bool.or_eq_true,
        forall_mem_cons] at h hh
      simp only [passes, zip_cons_cons, all_cons, Bool.and_eq_false_iff]
      obtain h | h := h
      · simp only [Bool.and_eq_true, bne_iff_ne] at h
        have hd : d = 1 := by simpa [SymInt.is, num?] using h.1
        have hi0 : i = 0 := by omega
        have hout : ¬(r.1 ≤ 0 ∧ 0 < r.2) := fun hr => h.2 (hh.1 h.1 hr.1 hr.2)
        simp only [hi0, decide_eq_false_iff_not]
        exact .inl (not_and_or.1 hout)
      · exact .inr (ih hh.2 h)

def dealMask (shape target : Shape) (m : Mask) : Mask :=
  if (shape.zip m).any (fun x => x.1.is 1 && x.2 != (0, 1)) then target.map
    (fun _ => ((0, 0) : Int × Int))
  else View.dealNonUnit (0, 1) (0, 0) target (View.keepNonUnit shape m)

lemma moveUnits_eq (v : View) (target : Shape) : v.moveUnits target =
    make target (dealNonUnit 0 0 target (keepNonUnit v.shape v.strides)) v.offset
      (v.mask.map (dealMask v.shape target)) := rfl

lemma passes_dealMask {q : List Int} (hq : Inside ds q) (hp : Inside ds' p)
    (hm : m.length = ds.length) (hne : ds' ≠ [])
    (hh : ∀ x ∈ (ofInts ds).zip m, x.1.is 1 = true → x.2.1 ≤ 0 → 0 < x.2.2 →
      x.2 = (0, 1))
    (heq : ds.filter (fun d => d ≠ 1) = ds'.filter (fun d => d ≠ 1))
    (hkeep : keepNonUnit (ofInts ds) q = keepNonUnit (ofInts ds') p) :
    passes p (dealMask (ofInts ds) (ofInts ds') m) = passes q m := by
  unfold dealMask
  split
  · rename_i hhidden
    rw [passes_of_hidden hq hh hhidden]
    cases hp with
    | nil => exact absurd rfl hne
    | cons hi _ => simp [passes, ofInts, hi.1]
  · rename_i hshown
    rw [passes_dealNonUnit hp ((keepNonUnit_length hm).trans (by rw [heq])),
      passes_keepNonUnit hq hm (Bool.eq_false_of_not_eq_true hshown), hkeep]

lemma passes_permute (hp : axes.Perm (range ds.length)) (h : p.length = ds.length)
    (hm : m.length = ds.length) : passes p (axes.map (fun i => m.getD i (0, 0))) =
      passes ((Movement.permute axes).source ds p) m := by
  have hn : axes.Nodup := hp.nodup_iff.2 nodup_range
  have hlen : axes.length = ds.length := by simpa using hp.length_eq
  have hsource : ((Movement.permute axes).source ds p).zip m =
      (range ds.length).map (fun i => (p.getD (axes.idxOf i) 0, m.getD i (0, 0))) := by
    conv_lhs => rw [← map_getD_range m (0, 0), hm]
    rw [Movement.source, zip, zipWith_map, zipWith_self]
  rw [passes, passes, hsource, zip, zipWith_axes hn (h.trans hlen.symm)]
  exact (hp.map _).all_eq

end Layout

namespace Shape
variable {ds p : List Int}

lemma length_squash (h : p.length = ds.length) : (squash ds p).length = ds.length := by
  simp [squash, h]

lemma squash_reorder {axes : List Nat} (hp : axes.Perm (range ds.length))
    (hlen : p.length = ds.length) : squash (axes.map fun i => ds.getD i 0)
      (axes.map fun i => p.getD i 0) = axes.map (fun i => (squash ds p).getD i 0) := by
  rw [squash, zipWith_map, zipWith_self]
  refine map_congr_left fun i hi => ?_
  have hi := perm_lt hp hi
  simp [squash, hi, hlen]

end Shape

/-! Positions before a movement. -/

namespace Movement
variable {ds ds' ds'' p q : List Int} {m : Movement}
variable {k : Nat} {axes : List Nat}

lemma squash_inside (h : Forall₂ (fun d d' => d' = d ∨ d = 1) ds ds') (hp : Inside ds' p) :
    Inside ds (squash ds p) := by
  induction hp generalizing ds with
  | nil =>
    cases h
    exact .nil
  | cons hi _ ih =>
    cases h with
    | cons hd hds =>
      refine .cons ?_ (ih hds)
      dsimp only
      split <;> omega

lemma shift_inside
    (h : Forall₂ (fun d (r : Int × Int) => 0 ≤ r.1 ∧ r.1 < r.2 ∧ r.2 ≤ d) ds ranges)
    (hp : Inside (ranges.map (fun r => r.2 - r.1)) p) :
    Inside ds (zipWith (fun r i => r.1 + i) ranges p) := by
  induction h generalizing p with
  | nil =>
    cases hp
    exact .nil
  | cons hr _ ih =>
    cases hp with
    | cons hi his =>
      dsimp only at hi
      exact .cons (by dsimp only; omega) (ih his)

lemma inside_iff : Inside ds p ↔ p.length = ds.length ∧
    ∀ k < ds.length, 0 ≤ p.getD k 0 ∧ p.getD k 0 < ds.getD k 0 := by
  rw [Inside, forall₂_iff_get]
  refine and_congr_right fun hlen => ⟨fun h k hk => ?_, fun h k hk hk' => ?_⟩
  · have := h k (by omega) hk
    simpa [hk, hlen] using this
  · have := h k hk'
    simpa [hk, hk'] using this

lemma getD_map_lt {α : Type} {xs : List α} {f : α → β} {a : α} {b : β}
    (hk : k < xs.length) :
    (xs.map f).getD k b = f (xs.getD k a) := by
  rw [getD_eq_getElem _ _ (by simpa using hk), getElem_map, getD_eq_getElem _ _ hk]

lemma getD_reorder (hk : k < ds.length) :
    ((permute axes).source ds p).getD k 0 = p.getD (axes.idxOf k) 0 := by
  simp [source, hk]

section
variable (hperm : axes.Perm (range ds.length))
include hperm

lemma reorder_inside (hp : Inside (axes.map (fun i => ds.getD i 0)) p) :
    Inside ds ((permute axes).source ds p) := by
  refine inside_iff.2 ⟨by simp [source], fun k hk => ?_⟩
  have hmem : k ∈ axes := hperm.symm.subset (mem_range.2 hk)
  have hlt := idxOf_lt_length_iff.2 hmem
  have hon := (inside_iff.1 hp).2 (axes.idxOf k) (by simpa using hlt)
  rw [getD_reorder hk]
  simpa [hlt] using hon

lemma reorder_source (hlen : p.length = axes.length) :
    axes.map (fun i => ((permute axes).source ds p).getD i 0) = p := by
  refine ext_getElem (by simp [hlen]) fun k h1 h2 => ?_
  have hn : axes.Nodup := hperm.nodup_iff.2 nodup_range
  have hk : k < axes.length := by simpa using h1
  rw [getElem_map, getD_reorder (perm_lt hperm (getElem_mem hk)), hn.idxOf_getElem,
    getD_eq_getElem _ _ h2]

lemma reorder_inj (hp : p.length = ds.length) (hq : q.length = ds.length)
    (h : axes.map (fun i => p.getD i 0) = axes.map (fun i => q.getD i 0)) : p = q := by
  refine ext_getElem (hp.trans hq.symm) fun k h1 h2 => ?_
  have hk := map_eq_map_iff.1 h k (hperm.symm.subset (mem_range.2 (by omega)))
  rwa [getD_eq_getElem _ _ h1, getD_eq_getElem _ _ h2] at hk

end

lemma length_source_permute (axes : List Nat) :
    ((permute axes).source ds p).length = ds.length := by
  simp [source]

lemma source_permute_eq (hperm : axes.Perm (range ds.length)) (hp : p.length = axes.length)
    (hq : q.length = ds.length) (h : axes.map (fun i => q.getD i 0) = p) :
    (permute axes).source ds p = q :=
  reorder_inj hperm (length_source_permute axes) hq ((reorder_source hperm hp).trans h.symm)

lemma source_squash (hperm : axes.Perm (range ds.length)) (hlen : ds.length = ds'.length)
    (hp : p.length = axes.length) :
    (permute axes).source ds (squash (axes.map fun i => ds.getD i 0) p) =
      squash ds ((permute axes).source ds' p) := by
  have hq : ((permute axes).source ds' p).length = ds.length :=
    (length_source_permute axes).trans hlen.symm
  refine source_permute_eq hperm ?_ (length_squash hq) ?_
  · rw [length_squash (by simpa using hp), length_map]
  · rw [← squash_reorder hperm hq, reorder_source (hlen ▸ hperm) hp]

lemma Takes.source_inside (h : m.Takes ds ds') (hd : Extents ds) (hp : Inside ds' p) :
    Inside ds (m.source ds p) := by
  cases m with
  | reshape target => exact place_inside (fun d hd' => (hd d hd').1) _
  | permute _ =>
    obtain ⟨hperm, rfl⟩ := h
    exact reorder_inside hperm hp
  | expand target => exact squash_inside h.2 hp
  | shrink _ =>
    obtain ⟨hr, rfl⟩ := h
    exact shift_inside hr hp
  | pad pads | stride steps => exact h.elim

lemma Takes.source_trivial {s : Shape} (hs : s.Sized ds) (h : m.isTrivial s = .ok true)
    (ht : m.Takes ds ds') (hp : Inside ds p) : m.source ds p = p := by
  have heq := ht.trivial hs h
  cases m with
  | pad pads | stride steps => exact ht.elim
  | reshape target =>
    rw [source, ht.1, ints?_ofInts, getD_some, heq, place_rank hp]
  | expand target =>
    rw [source, squash]
    refine ext_getElem (by simp [hp.length_eq]) fun k hk hk' => ?_
    have := hp.get hk' (hp.length_eq ▸ hk')
    simp only [get_eq_getElem] at this
    simp only [getElem_zipWith]
    split <;> omega
  | permute axes =>
    obtain ⟨hperm, rfl⟩ := ht
    have haxes : axes = range axes.length := by simpa using ok_eq_ok.1 h
    have hn : axes.length = ds.length := by simpa using hperm.length_eq
    refine source_permute_eq hperm (hp.length_eq.trans hn.symm) hp.length_eq ?_
    rw [haxes, hn, ← hp.length_eq, map_getD_range]
  | shrink _ =>
    obtain ⟨hr, rfl⟩ := ht
    rw [source]
    refine ext_getElem (by simp [hp.length_eq, hr.length_eq]) fun k hk hk' => ?_
    have hkd : k < ds.length := hp.length_eq ▸ hk'
    have hrange := hr.get hkd (hr.length_eq ▸ hkd)
    have hdim := getElem_of_eq heq.symm hkd
    simp only [get_eq_getElem, getElem_map] at hrange hdim
    simp only [getElem_zipWith]
    omega

lemma squash_squash (h : Forall₂ (fun d t => t = d ∨ d = 1) ds ds') (p : List Int) :
    squash ds (squash ds' p) = squash ds p := by
  simp only [squash]
  refine ext_getElem (by simp [h.length_eq]) fun k hk _ => ?_
  simp only [length_zipWith, lt_min_iff] at hk
  have := h.get hk.1 (h.length_eq ▸ hk.1)
  simp only [getElem_zipWith]
  split <;> simp_all

lemma source_permute_permute {p' q' : List Nat} (h1 : (permute p').Takes ds ds')
    (h2 : (permute q').Takes ds' ds'') (h : (permute p').merge (permute q') = .ok (some m))
    (hp : p.length = q'.length) :
    m.source ds p = (permute p').source ds ((permute q').source ds' p) := by
  have hperm := h1.merge h h2
  cases merge_permute h
  obtain ⟨hperm1, rfl⟩ := h1
  obtain ⟨hperm2, rfl⟩ := h2
  refine source_permute_eq hperm.1 (by simp [hp]) (length_source_permute _) ?_
  rw [List.map_map]
  conv_rhs => rw [← reorder_source hperm2 hp]
  refine map_congr_left fun j hj => ?_
  have hj' : j < p'.length := by simpa using perm_lt hperm2 hj
  have hlen : ((permute q').source (p'.map fun i => ds.getD i 0) p).length = p'.length := by
    rw [length_source_permute, length_map]
  conv_rhs => rw [← reorder_source hperm1 hlen]
  rw [getD_map_lt hj' (a := 0)]
  rfl

lemma source_shrink_shrink {p' q' : List (Int × Int)}
    (h : (shrink p').merge (shrink q') = .ok (some m)) :
    m.source ds p = (shrink p').source ds ((shrink q').source ds' p) := by
  cases merge_shrink h
  exact ext_getElem (by simp [source, min_assoc]) fun k _ _ => by simp [source, add_assoc]

/-- One movement for two reads where the two read. -/
lemma Takes.source_merge {first second : Movement} (h : first.merge second = .ok (some m))
    (h1 : first.Takes ds ds') (h2 : second.Takes ds' ds'') (hd' : Extents ds')
    (hp : Inside ds'' p) : m.source ds p = first.source ds (second.source ds' p) := by
  cases first <;> cases second <;> try (first | exact h1.elim | exact h2.elim | cases h)
  case reshape.reshape.refl s t =>
    have hb := hp.rank_bounds
    rw [source, source, source, h1.1, h2.1, ints?_ofInts, ints?_ofInts, getD_some,
      getD_some, rank_place (fun d h => (hd' d h).1),
      Int.emod_eq_of_lt hb.1 (h2.2 ▸ hb.2)]
  case expand.expand.refl s t => exact (squash_squash h1.2 p).symm
  case permute.permute p' q' =>
    exact source_permute_permute h1 h2 h (by simpa [h2.2] using hp.length_eq)
  case shrink.shrink p' q' => exact source_shrink_shrink h

end Movement

end LazyTensor
