import LazyTensor.Proofs.Layout.Plain

/-! Dimensions of rewritten movements: a movement that takes the place of others gives the
dimensions that they give. -/
namespace LazyTensor
open Checked List SymInt
variable {P : Int → Int → Prop} {i : Nat} {axes : List Nat}
variable {ds ds' : List Int}

lemma map_getD_range {α : Type} (ds : List α) (a : α) :
    (range ds.length).map (fun i => ds.getD i a) = ds := by
  refine ext_getElem (by simp) fun i _ hi => ?_
  rw [getElem_map, getElem_range, getD_eq_getElem _ _ hi]

lemma Forall₂.getD (h : Forall₂ P ds ds') (hi : i < ds.length) :
    P (ds.getD i 0) (ds'.getD i 0) := by
  have hi' : i < ds'.length := h.length_eq ▸ hi
  rw [getD_eq_getElem _ _ hi, getD_eq_getElem _ _ hi']
  exact h.get hi hi'

lemma perm_lt {n : Nat} (h : axes.Perm (range n)) (hi : i ∈ axes) : i < n :=
  mem_range.1 (h.subset hi)

lemma Forall₂.reorder (h : Forall₂ P ds ds') (hp : axes.Perm (range ds.length)) :
    Forall₂ P (axes.map (fun i => ds.getD i 0)) (axes.map (fun i => ds'.getD i 0)) := by
  rw [forall₂_map_left_iff, forall₂_map_right_iff, forall₂_same]
  exact fun i hi => Forall₂.getD h (perm_lt hp hi)

lemma Extents.reorder (h : Extents ds) (hp : axes.Perm (range ds.length)) :
    Extents (axes.map (fun i => ds.getD i 0)) := by
  intro d hd
  obtain ⟨i, hi, rfl⟩ := mem_map.1 hd
  rw [getD_eq_getElem _ _ (perm_lt hp hi)]
  exact h _ (getElem_mem _)

lemma prod_reorder (hp : axes.Perm (range ds.length)) :
    (axes.map (fun i => ds.getD i 0)).prod = ds.prod := by
  rw [(hp.map fun i => ds.getD i 0).prod_eq, map_getD_range]

namespace Movement
variable {m first second : Movement} {ds ds' ds'' : List Int}
variable {p q : List (Int × Int)}

lemma Takes.reorder (hp : axes.Perm (range ds.length)) :
    (permute axes).Takes ds (axes.map (fun i => ds.getD i 0)) := ⟨hp, rfl⟩

lemma nested (hp : Forall₂ (fun d (r : Int × Int) => 0 ≤ r.1 ∧ r.1 < r.2 ∧ r.2 ≤ d) ds p)
    (hq : Forall₂ (fun d (r : Int × Int) => 0 ≤ r.1 ∧ r.1 < r.2 ∧ r.2 ≤ d)
      (p.map (fun r => r.2 - r.1)) q) :
    (shrink ((p.zip q).map (fun s => (s.1.1 + s.2.1, s.1.1 + s.2.2)))).Takes ds
      (q.map (fun r => r.2 - r.1)) := by
  induction hp generalizing q with
  | nil =>
    cases hq
    exact ⟨.nil, rfl⟩
  | @cons d r ds p hr _ ih =>
    cases hq with
    | @cons _ r' _ q hr' hq =>
      obtain ⟨hb, he⟩ := ih hq
      dsimp only at hr'
      refine ⟨.cons (by dsimp only; omega) hb, ?_⟩
      rw [map_cons, he, zip_cons_cons, map_cons, map_cons]
      congr 1
      dsimp only
      omega

lemma broadcast_trans (h1 : Forall₂ (fun d t => t = d ∨ d = 1) ds ds')
    (h2 : Forall₂ (fun d t => t = d ∨ d = 1) ds' ds'') :
    Forall₂ (fun d t => t = d ∨ d = 1) ds ds'' := by
  induction h1 generalizing ds'' with
  | nil => exact h2
  | cons hd _ ih =>
    cases h2 with
    | cons hd' hrest => exact .cons (by omega) (ih hrest)

/-! The arguments of one movement for two. -/

lemma merge_permute {p q : List Nat} (h : (permute p).merge (permute q) = .ok (some m)) :
    m = permute (q.map (fun i => p.getD i 0)) := by
  obtain ⟨r, hr, h⟩ := bind_eq_ok.1 h
  cases h
  rw [reordered_eq hr]

lemma merge_pad (h : (pad p).merge (pad q) = .ok (some m)) :
    m = pad ((p.zip q).map (fun s => (s.1.1 + s.2.1, s.1.2 + s.2.2))) := by
  obtain ⟨r, hr, h⟩ := bind_eq_ok.1 h
  cases h
  congr 1
  refine eq_map_of_mapM (fun s _ y hy => ?_) hr
  simp only [bind_eq_ok, add_eq_ok, pure_eq_ok] at hy
  obtain ⟨_, ⟨_, rfl⟩, _, ⟨_, rfl⟩, rfl⟩ := hy
  rfl

lemma merge_shrink (h : (shrink p).merge (shrink q) = .ok (some m)) :
    m = shrink ((p.zip q).map (fun s => (s.1.1 + s.2.1, s.1.1 + s.2.2))) := by
  obtain ⟨r, hr, h⟩ := bind_eq_ok.1 h
  cases h
  congr 1
  refine eq_map_of_mapM (fun s _ y hy => ?_) hr
  simp only [bind_eq_ok, add_eq_ok, pure_eq_ok] at hy
  obtain ⟨_, ⟨_, rfl⟩, _, ⟨_, rfl⟩, rfl⟩ := hy
  rfl

lemma merge_stride {p q : List Int} (h : (stride p).merge (stride q) = .ok (some m)) :
    m = stride ((q.zip p).map (fun s => s.1 * s.2)) := by
  obtain ⟨r, hr, h⟩ := bind_eq_ok.1 h
  cases h
  congr 1
  exact eq_map_of_mapM (fun s _ y hy => (mul_eq_ok.1 hy).2.symm) hr

lemma Takes.merge (h : first.merge second = .ok (some m)) (h1 : first.Takes ds ds')
    (h2 : second.Takes ds' ds'') : m.Takes ds ds'' := by
  cases first <;> cases second <;> try (first | exact h1.elim | exact h2.elim | cases h)
  case reshape.reshape.refl s => exact ⟨h2.1, h1.2.trans h2.2⟩
  case expand.expand.refl s => exact ⟨h2.1, broadcast_trans h1.2 h2.2⟩
  case permute.permute p q =>
    cases merge_permute h
    have hq : q.Perm (range p.length) := by
      have := h2.1
      rwa [h1.2, length_map] at this
    refine ⟨((hq.map _).trans (.of_eq (map_getD_range p 0))).trans h1.1, ?_⟩
    rw [h2.2, map_map, h1.2]
    refine map_congr_left fun i hi => ?_
    have hlt := perm_lt hq hi
    rw [Function.comp, getD_eq_getElem _ _ (by simpa using hlt), getElem_map,
      getD_eq_getElem p _ hlt]
  case shrink.shrink p q =>
    cases merge_shrink h
    obtain ⟨hp, rfl⟩ := h1
    obtain ⟨hq, rfl⟩ := h2
    exact nested hp hq

end Movement

namespace Shape
variable {ds dt : List Int} {groups : List (List Nat)}

def axesOf (pairs : List (Int × Nat)) : List (SymInt × Nat) :=
  pairs.map (fun p => (.num p.1, p.2))

lemma product_returns (ds : List Int) :
    Returns .arithmetic (ofInts ds).product (· = .num ds.prod) := by
  have walk (whole : Shape) (ds : List Int) (a : Int) :
      Returns .arithmetic ((ofInts ds).foldlM (productStep whole) (a, none))
        (· = (a * ds.prod, none)) := by
    induction ds generalizing a with
    | nil => exact .ok (by simp)
    | cons d ds ih =>
      have hmul : Returns .arithmetic (mul a d) (a * d = ·) :=
        .of_overflow (.word _) fun _ h => (mul_eq_ok.1 h).2
      have hstep : Returns .arithmetic (productStep whole (a, none) (.num d))
          (· = (a * d, none)) :=
        hmul.bind fun n _ hn => .ok (by rw [hn])
      refine hstep.bind fun r _ hr => ?_
      subst hr
      exact (ih (a * d)).weaken fun r hr => by rw [hr, prod_cons, mul_assoc]
  refine (walk _ ds 1).bind fun r _ hr => ?_
  subst hr
  exact .ok (by rw [one_mul])

lemma product_ofInts {size : SymInt} (h : (ofInts ds).product = .ok size) :
    size = .num ds.prod := (product_returns ds).of_ok h

lemma fillGroup_returns (n : Int) (last : Bool) (pairs : List (Int × Nat)) (dims : List Int)
    (group : List Nat) :
    Returns .arithmetic (fillGroup (.num n) last (axesOf pairs) (ofInts dims) group)
      (fun o => ∀ group' rest, o = some (group', rest) →
        ∃ taken left, pairs = taken ++ left ∧
        rest = axesOf left ∧ group' = group ++ taken.map (·.2) ∧
        (dims.prod ≤ n → (dims ++ taken.map (·.1)).prod ≤ n)) := by
  induction pairs generalizing dims group with
  | nil =>
    refine .ok fun group' rest h => ?_
    cases h
    exact ⟨[], [], rfl, rfl, by simp, by simp⟩
  | cons p pairs ih =>
    obtain ⟨d, i⟩ := p
    rw [axesOf, map_cons, fillGroup]
    split
    · refine .ok fun group' rest h => ?_
      split at h
      · cases h
      · cases h
        exact ⟨[], (d, i) :: pairs, rfl, rfl, by simp, by simp⟩
    rw [show ofInts dims ++ [num d] = ofInts (dims ++ [d]) by simp [ofInts]]
    refine (product_returns _).bind fun size _ hsize => ?_
    have next (hle : (dims ++ [d]).prod ≤ n) : Returns .arithmetic (fillGroup (.num n) last
        (axesOf pairs) (ofInts (dims ++ [d])) (group ++ [i])) (fun o => ∀ group' rest,
          o = some (group', rest) → ∃ taken left, (d, i) :: pairs = taken ++ left ∧
          rest = axesOf left ∧ group' = group ++ taken.map (·.2) ∧
          (dims.prod ≤ n → (dims ++ taken.map (·.1)).prod ≤ n)) := by
      refine (ih (dims ++ [d]) (group ++ [i])).weaken fun o ho group' rest h => ?_
      obtain ⟨taken, left, rfl, rfl, rfl, hprod⟩ := ho group' rest h
      exact ⟨(d, i) :: taken, left, rfl, rfl, by simp, fun _ => by simpa using hprod hle⟩
    subst hsize
    split
    · rename_i heq
      have hle := (eq_of_num_beq heq).le
      split
      · exact next hle
      · refine .ok fun group' rest h => ?_
        cases h
        exact ⟨[(d, i)], pairs, rfl, rfl, rfl, fun _ => hle⟩
    · simp only [num?]
      split
      · rename_i hlt
        exact next hlt.le
      · exact .ok (by simp)

lemma groupAxes_returns (pairs : List (Int × Nat)) (dt : List Int) :
    Returns .arithmetic (groupAxes (axesOf pairs) (ofInts dt))
      (fun o => ∀ groups, o = some groups →
      ∃ parts : List (List (Int × Nat)), pairs = parts.flatten ∧
        groups = parts.map (·.map (·.2)) ∧
        ((∀ d ∈ dt, 0 < d) → Forall₂
          (fun part n => (part.map (·.1)).prod ≤ n) parts dt)) := by
  induction dt generalizing pairs with
  | nil =>
    refine .ok fun groups h => ?_
    cases pairs <;> cases h
    exact ⟨[], rfl, rfl, fun _ => .nil⟩
  | cons n dt ih =>
    rw [ofInts, map_cons, groupAxes]
    refine (fillGroup_returns n _ pairs [] []).bind fun o _ ho => ?_
    cases o with
    | none => exact .ok (by simp)
    | some o =>
      obtain ⟨group, rest⟩ := o
      obtain ⟨taken, left, rfl, rfl, rfl, hle⟩ := ho group rest rfl
      refine (ih left).bind fun o _ ho => .ok fun groups h => ?_
      obtain ⟨groups', rfl, rfl⟩ := Option.map_eq_some_iff.1 h
      obtain ⟨parts, rfl, rfl, hall⟩ := ho groups' rfl
      refine ⟨taken :: parts, rfl, rfl, fun hd => ?_⟩
      obtain ⟨hn, hd⟩ := forall_mem_cons.1 hd
      exact .cons (by simpa using hle hn) (hall hd)

lemma contraction?_returns (ds dt : List Int) :
    Returns .arithmetic (contraction? (ofInts ds) (ofInts dt))
      (fun o => ∀ groups, o = some groups →
      ∃ parts : List (List (Int × Nat)), ds.zipIdx = parts.flatten ∧
        groups = parts.map (·.map (·.2)) ∧ ((∀ d ∈ dt, 0 < d) →
          Forall₂ (fun part n => (part.map (·.1)).prod ≤ n) parts dt)) := by
  have hax : (ofInts ds).zipIdx = axesOf ds.zipIdx := by
    rw [ofInts, zipIdx_map, axesOf]
    rfl
  rw [contraction?, hax]
  exact groupAxes_returns ds.zipIdx dt

lemma eq_of_prod_eq {as bs : List Int} (h : Forall₂ (fun a b => 0 < a ∧ a ≤ b) as bs) :
    0 < as.prod ∧ as.prod ≤ bs.prod ∧ (as.prod = bs.prod → as = bs) := by
  induction h with
  | nil => simp
  | @cons a b as bs hab _ ih =>
    obtain ⟨hpos, hle, heq⟩ := ih
    obtain ⟨ha, hab⟩ := hab
    rw [prod_cons, prod_cons]
    refine ⟨mul_pos ha hpos, mul_le_mul hab hle hpos.le (by omega), fun he => ?_⟩
    have hsame : as.prod = bs.prod := by
      refine le_antisymm hle ?_
      have : a * bs.prod ≤ a * as.prod := by
        rw [he]
        exact mul_le_mul_of_nonneg_right hab (by omega)
      exact le_of_mul_le_mul_left this ha
    rw [heq hsame]
    rw [hsame] at he
    rw [mul_right_cancel₀ (by omega) he]

lemma contraction?_some (hd : ∀ d ∈ ds, 0 < d) (ht : ∀ d ∈ dt, 0 < d)
    (hprod : ds.prod = dt.prod) (h : contraction? (ofInts ds) (ofInts dt) = .ok (some groups)) :
    groups.flatten = range ds.length ∧
      Forall₂ (fun group n => (group.map (fun i => ds.getD i 0)).prod = n) groups dt := by
  obtain ⟨parts, hparts, rfl, hall⟩ := (contraction?_returns ds dt).of_ok h groups rfl
  replace hall := hall ht
  have hmem : ∀ part ∈ parts, ∀ p ∈ part, ds[p.2]? = some p.1 := by
    intro part hpart p hp
    have hz : p ∈ ds.zipIdx := by
      rw [hparts]
      exact mem_flatten_of_mem hpart hp
    exact mk_mem_zipIdx_iff_getElem?.1 hz
  refine ⟨?_, ?_⟩
  · rw [← map_flatten, ← hparts, zipIdx_map_snd, range_eq_range']
  · have hpos : ∀ part ∈ parts, 0 < (part.map (·.1)).prod := by
      intro part hpart
      refine prod_pos fun d hdm => ?_
      obtain ⟨p, hp, rfl⟩ := mem_map.1 hdm
      exact hd _ (mem_of_getElem? (hmem part hpart p hp))
    have hle : Forall₂ (fun a b => 0 < a ∧ a ≤ b)
        (parts.map fun part => (part.map (·.1)).prod) dt := by
      rw [forall₂_map_left_iff]
      refine forall₂_iff_get.2 ⟨hall.length_eq, fun i h1 h2 => ?_⟩
      exact ⟨hpos _ (get_mem _ _), hall.get h1 h2⟩
    have heq := (eq_of_prod_eq hle).2.2 (by
      rw [← hprod, show (fun part : List (Int × Nat) => (part.map (·.1)).prod)
        = prod ∘ map (·.1) from rfl, ← map_map, ← prod_flatten,
        ← map_flatten, ← hparts, zipIdx_map_fst])
    rw [forall₂_map_left_iff, ← heq, forall₂_map_right_iff, forall₂_same]
    intro part hpart
    rw [map_map]
    congr 1
    refine map_congr_left fun p hp => ?_
    rw [Function.comp, getD_eq_getElem?_getD, hmem part hpart p hp]
    rfl

lemma flatten_perm {flat : List (List Nat)} (hd : Extents ds) (ht : Extents dt)
    (hprod : ds.prod = dt.prod) (hgroups : contraction? (ofInts ds) (ofInts dt) = .ok (some groups))
    (hflat : axes.mapM (nth groups) = .ok flat) (hp : axes.Perm (range dt.length)) :
    flat.flatten.Perm (range ds.length) := by
  obtain ⟨hall, hgroup⟩ := contraction?_some (fun d h => (hd d h).1) (fun d h => (ht d h).1)
    hprod hgroups
  rw [reordered_eq (a := []) hflat, ← hall]
  have hp' : axes.Perm (range groups.length) := hgroup.length_eq ▸ hp
  exact ((hp'.map fun i => groups.getD i []).trans (.of_eq (map_getD_range groups []))).flatten

end Shape

end LazyTensor
