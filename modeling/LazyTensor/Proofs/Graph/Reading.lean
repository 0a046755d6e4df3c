import LazyTensor.Proofs.Graph.Store
import LazyTensor.Proofs.Layout.Resize

/-! Readings of a graph. A reading says what operations do to values of some kind, and which laws
they obey; the rules that build a graph rewrite its operations by these laws only. The values may be
arrays, or only numbers that measure how deep a tensor lies. -/
namespace LazyTensor
open Checked

/-- What operations do to values. The laws are those by which tensors are rewritten; their
premises about dimensions may be used where the reading is `typed`. Where it is `exact`, tensors
are never padded and calls stay in bounds. -/
structure Reading where
  Value : Type
  typed : Prop
  exact : Prop
  /-- The value has these dimensions. -/
  Fits : Value → List Int → Prop
  elementwise : Op → OpArg → List Value → Value
  reduce : ReduceOp → Shape → Value → Value
  move : Movement → Value → Value
  /-- A base seen through a layout. -/
  look : Layout → Value → Value
  load : Nat → OpTree → List Value → Value
  /-- How many sources an elementwise operation may have. -/
  Accepts : Op → Nat → Prop
  fits_move {m : Movement} {v : Value} {ds ds' : List Int} : typed → Extents ds →
    m.Suits exact ds ds' →
    Fits v ds → Fits (move m v) ds'
  fits_elementwise {op : Op} {arg : OpArg} {vs : List Value} {ds : List Int} : typed →
    vs ≠ [] →
    (∀ v ∈ vs, Fits v ds) → Fits (elementwise op arg vs) ds
  elementwise_congr {op : Op} {arg arg' : OpArg} {vs : List Value} : (arg == arg') = true →
    elementwise op arg vs = elementwise op arg' vs
  reduce_congr {op : ReduceOp} {s s' : Shape} {v : Value} : (typed → s = s') →
    reduce op s v = reduce op s' v
  move_congr {m m' : Movement} {v : Value} : (typed → m = m') → move m v = move m' v
  move_trivial {m : Movement} {s : Shape} {v : Value} : m.isTrivial s = .ok true →
    (typed → ∃ ds ds', s.Sized ds ∧ m.Suits exact ds ds' ∧ Fits v ds) → move m v = v
  move_merge {first second m : Movement} {v : Value} : first.merge second = .ok (some m) →
    (typed → ∃ ds ds' ds'', Extents ds ∧ Extents ds' ∧ first.Suits exact ds ds' ∧
      second.Suits exact ds' ds'' ∧
      Fits v ds) → move m v = move second (move first v)
  move_elementwise {m : Movement} {op : Op} {arg : OpArg} {vs : List Value} :
    (typed → vs ≠ [] ∧ ∃ ds ds', Extents ds ∧ Extents ds' ∧ m.Suits exact ds ds' ∧
      ∀ v ∈ vs, Fits v ds) →
    move m (elementwise op arg vs) = elementwise op arg (vs.map (move m))
  look_whole {s : Shape} {l : Layout} {v : Value} : Layout.ofShape s = .ok l →
    (typed → ∃ ds, s.Sized ds ∧ Fits v ds) → look l v = v
  look_move {m : Movement} {l l' : Layout} {v : Value} : m.apply l = .ok l' →
    (typed → ∃ ds ds', l.Suits exact ds ∧ m.Suits exact ds ds' ∧ Extents ds') →
    look l' v = move m (look l v)
  look_contiguous {l : Layout} {v : Value} : l.contiguous = true →
    (typed → ∃ ds bs, l.Suits exact ds ∧ Fits v bs ∧ Extents bs ∧ bs.prod = ds.prod) →
    look l v = move (.reshape l.shape) v
  reduce_same {op : ReduceOp} {s : Shape}
    {v : Value} : (typed → ∃ ds, s.Sized ds ∧ Fits v ds) → reduce op s v = v
  reduce_permute {op : ReduceOp} {s s' : Shape} {axes : List Nat} {v : Value} :
    Graph.Rules.reordered s axes = .ok s' →
    (typed → ∃ ds dt, Extents ds ∧ s.Sized dt ∧ Reduces ds dt ∧
      axes.Perm (List.range dt.length) ∧
      Fits v ds) → reduce op s' (move (.permute axes) v) = move (.permute axes) (reduce op s v)
  expand_permute {s s' : Shape} {axes : List Nat} {v : Value} :
    Graph.Rules.reordered s axes = .ok s' →
    (typed → ∃ ds dt, Extents ds ∧ Extents dt ∧ (Movement.expand s).Suits exact ds dt ∧
      axes.Perm (List.range dt.length) ∧ Fits v ds) →
    move (.expand s') (move (.permute axes) v) = move (.permute axes) (move (.expand s) v)
  reshape_permute {old s s' : Shape} {axes : List Nat} {groups flat : List (List Nat)} {v : Value} :
    Shape.contraction? old s = .ok (some groups) → axes.mapM (nth groups) = .ok flat →
    Graph.Rules.reordered s axes = .ok s' →
    (typed → ∃ ds dt, old.Sized ds ∧ Extents dt ∧ (Movement.reshape s).Suits exact ds dt ∧
      axes.Perm (List.range dt.length) ∧ Fits v ds) →
    move (.reshape s') (move (.permute flat.flatten) v) = move (.permute axes) (move (.reshape s) v)
  permute_ones {s s' : Shape} {axes : List Nat} {v : Value} :
    Graph.Rules.permutesOnes s axes = .ok true → Graph.Rules.reordered s axes = .ok s' →
    (typed → ∃ ds, s.Sized ds ∧ axes.Perm (List.range ds.length) ∧ Fits v ds) →
    move (.reshape s') v = move (.permute axes) v
  reduce_cut {op : ReduceOp} {s outer inner whole : Shape} {old : List Int} {cut : Graph.Cut}
      {v : Value} :
    Graph.cutShape old cut [cut.divisor] = .ok outer → Graph.cutShape old cut [1] = .ok inner →
    Graph.cutShape old cut [] = .ok whole →
    (typed → ∃ dt, Extents old ∧ s.Sized dt ∧ Reduces old dt ∧ Fits v old ∧
      0 < cut.divisor ∧
      (∃ d, old[cut.axis]? = some d ∧ dt[cut.axis]? = some 1 ∧ cut.divisor ∣ d)) →
    reduce op s (move (.reshape whole) (reduce op inner (move (.reshape outer) v))) = reduce op s v

end LazyTensor
