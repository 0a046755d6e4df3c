import LazyTensor.Proofs.Layout.Place
import LazyTensor.Proofs.Graph.Reading

/-! Tables of scalars, and what movements and elementwise operations do to them. -/
namespace LazyTensor
open Checked Shape Layout Option LazyTensor.Graph Movement List
variable {ds ds' : List Int}

instance (ds p : List Int) : Decidable (Shape.Inside ds p) :=
  inferInstanceAs (Decidable (List.Forall₂ _ p ds))

/-- Scalars at the positions of a shape; the default everywhere else. -/
structure Table (X : Type) where
  dims : List Int
  entry : List Int → X

def Movement.dims : Movement → List Int → List Int
  | reshape target, _ | expand target, _ => target.ints?.getD []
  | permute axes, ds => axes.map (fun i => ds.getD i 0)
  | shrink ranges, _ => ranges.map (fun r => r.2 - r.1)
  | pad _, ds | stride _, ds => ds

lemma Movement.Takes.dims_eq {m : Movement} (h : m.Takes ds ds') : m.dims ds = ds' := by
  cases m with
  | reshape target | expand target => rw [dims, h.1, ints?_ofInts, getD_some]
  | permute axes | shrink ranges => exact h.2.symm
  | pad pads | stride steps => exact h.elim

namespace Table
variable {X : Type} [Inhabited X]

def tabulate (ds : List Int) (f : List Int → X) : Table X where
  dims := ds
  entry p := if Shape.Inside ds p then f p else default

def Fits (t : Table X) (ds : List Int) : Prop :=
  t.dims = ds ∧ ∀ p, ¬Shape.Inside ds p → t.entry p = default

lemma tabulate_fits (h : ds' = ds) (f : List Int → X) : (tabulate ds' f).Fits ds := by
  subst h
  exact ⟨rfl, fun _ hp => if_neg hp⟩

lemma tabulate_entry {ds p : List Int} {f : List Int → X} (hp : Inside ds p) :
    (tabulate ds f).entry p = f p := if_pos hp

lemma Fits.ext {t u : Table X} (ht : t.Fits ds) (hu : u.Fits ds)
    (h : ∀ p, Inside ds p → t.entry p = u.entry p) : t = u := by
  obtain ⟨td, te⟩ := t
  obtain ⟨ud, ue⟩ := u
  obtain ⟨rfl, ht⟩ := ht
  obtain ⟨rfl, hu⟩ := hu
  congr 1
  funext p
  by_cases hp : Inside ud p
  · exact h p hp
  · exact (ht p hp).trans (hu p hp).symm

lemma tabulate_congr {ds : List Int} {f f' : List Int → X}
    (h : ∀ p, Inside ds p → f p = f' p) : tabulate ds f = tabulate ds f' :=
  (tabulate_fits rfl f).ext (tabulate_fits rfl f') fun p hp => by
    rw [tabulate_entry hp, tabulate_entry hp, h p hp]

def zip (f : List X → X) (ts : List (Table X)) : Table X :=
  tabulate ((ts.head?.map dims).getD []) (fun p => f (ts.map (·.entry p)))

def move (m : Movement) (t : Table X) : Table X :=
  tabulate (m.dims t.dims) (fun p => t.entry (m.source t.dims p))

def look (l : Layout) (t : Table X) : Table X :=
  tabulate (l.shape.ints?.getD []) (fun p =>
    (l.placeOf p).elim default (fun x => t.entry (Shape.place t.dims x)))

end Table

namespace Table
variable {X : Type} [Inhabited X] {m : Movement} {t : Table X} {ds ds' ds'' p : List Int}
variable {f : List X → X} {ts : List (Table X)} {l : Layout} {s s' : Shape} {axes : List Nat}

lemma move_fits (hm : m.Takes ds ds') (ht : t.Fits ds) : (t.move m).Fits ds' :=
  tabulate_fits (by rw [ht.1, hm.dims_eq]) _

lemma move_entry (hm : m.Takes ds ds') (ht : t.Fits ds) (hp : Inside ds' p) :
    (t.move m).entry p = t.entry (m.source ds p) := by
  rw [move, ht.1, hm.dims_eq, tabulate_entry hp]

lemma zip_fits (hne : ts ≠ []) (h : ∀ t ∈ ts, t.Fits ds) : (zip f ts).Fits ds := by
  cases ts with
  | nil => exact absurd rfl hne
  | cons t ts => exact tabulate_fits (h t mem_cons_self).1 _

lemma zip_entry (hne : ts ≠ []) (h : ∀ t ∈ ts, t.Fits ds) (hp : Inside ds p) :
    (zip f ts).entry p = f (ts.map (·.entry p)) := by
  cases ts with
  | nil => exact absurd rfl hne
  | cons t ts =>
    have hin : Inside t.dims p := (h t mem_cons_self).1.symm ▸ hp
    exact tabulate_entry hin

lemma look_fits (hl : l.shape.Sized ds) : (t.look l).Fits ds :=
  tabulate_fits (by rw [hl.1, ints?_ofInts, getD_some]) _

lemma look_entry (hl : l.shape.Sized ds) (hp : Inside ds p) :
    (t.look l).entry p = (l.placeOf p).elim default (fun x => t.entry (place t.dims x)) := by
  rw [look, hl.1, ints?_ofInts, getD_some, tabulate_entry hp]

/-! The laws of movements. -/

lemma move_trivial (h : m.isTrivial s = .ok true) (hs : s.Sized ds) (hm : m.Takes ds ds')
    (ht : t.Fits ds) : t.move m = t := by
  have heq := hm.trivial hs h
  subst heq
  refine (move_fits hm ht).ext ht fun p hp => ?_
  rw [move_entry hm ht hp, hm.source_trivial hs h hp]

lemma move_merge {first second : Movement} (h : first.merge second = .ok (some m))
    (h1 : first.Takes ds ds') (h2 : second.Takes ds' ds'') (hd' : Extents ds') (ht : t.Fits ds) :
    t.move m = (t.move first).move second := by
  have hm := h1.merge h h2
  have ht1 := move_fits h1 ht
  refine (move_fits hm ht).ext (move_fits h2 ht1) fun p hp => ?_
  rw [move_entry hm ht hp, move_entry h2 ht1 hp, move_entry h1 ht (h2.source_inside hd' hp),
    h1.source_merge h h2 hd' hp]

lemma move_zip (hne : ts ≠ []) (hd : Extents ds) (hm : m.Takes ds ds')
    (h : ∀ t ∈ ts, t.Fits ds) :
    (zip f ts).move m = zip f (ts.map (move m)) := by
  have hne' : ts.map (move m) ≠ [] := by simpa using hne
  have h' : ∀ t ∈ ts.map (move m), t.Fits ds' := by
    intro t ht
    obtain ⟨u, hu, rfl⟩ := mem_map.1 ht
    exact move_fits hm (h u hu)
  refine (move_fits hm (zip_fits hne h)).ext (zip_fits hne' h') fun p hp => ?_
  rw [move_entry hm (zip_fits hne h) hp, zip_entry hne h (hm.source_inside hd hp),
    zip_entry hne' h' hp, List.map_map]
  refine congrArg f (map_congr_left fun t ht => ?_)
  exact (move_entry hm (h t ht) hp).symm

lemma look_whole (hl : ofShape s = .ok l) (hs : s.Sized ds) (ht : t.Fits ds) : t.look l = t := by
  have hplain := Plain.ofShape hs hl
  obtain ⟨rfl, _⟩ := hs
  refine (look_fits hplain.sized).ext ht fun p hp => ?_
  simp only [ofShape, bind_eq_ok, pure_eq_ok] at hl
  obtain ⟨top, htop, rfl⟩ := hl
  rw [look_entry hplain.sized hp, placeOf_rowMajor htop hp, trace, elim_some, ht.1, place_rank hp]

lemma look_move {l' : Layout} (h : m.apply l = .ok l') (hl : l.Plain ds) (hm : m.Takes ds ds')
    (hd : Extents ds') : t.look l' = (t.look l).move m := by
  have hl' := hl.apply hm hd h
  have ht := look_fits (t := t) hl.sized
  refine (look_fits hl'.sized).ext (move_fits hm ht) fun p hp => ?_
  rw [look_entry hl'.sized hp, move_entry hm ht hp,
    look_entry hl.sized (hm.source_inside hl.sized.2 hp), hl.placeOf_apply hm hd h hp]

lemma look_contiguous {bs : List Int} (h : l.contiguous = true) (hl : l.Plain ds)
    (ht : t.Fits bs) (hprod : bs.prod = ds.prod) : t.look l = t.move (.reshape l.shape) := by
  have hm : (reshape l.shape).Takes bs ds := ⟨hl.sized.1, hprod⟩
  refine (look_fits hl.sized).ext (move_fits hm ht) fun p hp => ?_
  rw [look_entry hl.sized hp, move_entry hm ht hp, hl.placeOf_contiguous h hp, elim_some,
    source, hl.sized.1, ints?_ofInts, getD_some, ht.1]

lemma permute_ones (h : Rules.permutesOnes s axes = .ok true)
    (hs' : Rules.reordered s axes = .ok s') (hs : s.Sized ds)
    (hp : axes.Perm (range ds.length)) (ht : t.Fits ds) :
    t.move (.reshape s') = t.move (.permute axes) := by
  unfold Rules.permutesOnes at h
  split at h
  · simp only [bind_eq_ok, pure_eq_ok] at h
    obtain ⟨l, hl, l', hl', hc⟩ := h
    have hm : (permute axes).Takes ds (axes.map fun i => ds.getD i 0) := .reorder hp
    have hplain := Plain.ofShape hs hl
    have hplain' := hplain.apply hm (hs.2.reorder hp) hl'
    have hshape : s' = l'.shape := by
      rw [hplain'.sized.1, reordered_eq (a := SymInt.num 0) hs', hs.1, ofInts_map]
    rw [hshape, ← look_contiguous hc hplain' ht (prod_reorder hp).symm,
      look_move (m := .permute axes) hl' hplain hm (hs.2.reorder hp), look_whole hl hs ht]
  · cases h

lemma expand_permute (hs' : Rules.reordered s axes = .ok s') (hd : Extents ds)
    (hd' : Extents ds') (hm : (expand s).Takes ds ds')
    (hp : axes.Perm (range ds'.length)) (ht : t.Fits ds) :
    (t.move (.permute axes)).move (.expand s') = (t.move (.expand s)).move (.permute axes) := by
  have hlen := hm.2.length_eq
  have hp' : axes.Perm (range ds.length) := hlen ▸ hp
  have hm1 : (permute axes).Takes ds _ := .reorder hp'
  have hm2 : (permute axes).Takes ds' _ := .reorder hp
  have hm3 : (expand s').Takes (axes.map fun i => ds.getD i 0)
      (axes.map fun i => ds'.getD i 0) := by
    refine ⟨?_, Forall₂.reorder hm.2 hp'⟩
    rw [reordered_eq (a := SymInt.num 0) hs', hm.1, ofInts_map]
  have ht1 := move_fits hm1 ht
  have ht2 := move_fits hm ht
  refine (move_fits hm3 ht1).ext (move_fits hm2 ht2) fun p hin => ?_
  have hpl : p.length = axes.length := by simpa using hin.length_eq
  rw [move_entry hm3 ht1 hin, move_entry hm1 ht (hm3.source_inside (hd.reorder hp') hin),
    move_entry hm2 ht2 hin, move_entry hm ht (hm2.source_inside hd' hin)]
  congr 1
  exact source_squash hp' hlen hpl

end Table

end LazyTensor
