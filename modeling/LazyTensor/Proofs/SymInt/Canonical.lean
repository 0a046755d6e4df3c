import LazyTensor.Proofs.SymInt.Atoms
import Mathlib.Data.List.Nodup

/-! Linear arithmetic is canonical: the key of a linear combination does not depend on how the
combination was put together. -/
namespace LazyTensor.SymInt
open Checked List Prod
variable {a b e t : SymInt} {c : Int}
variable {x : (SymInt → Int) → Int}

/-- What a linear combination is made of: no number, multiple or sum, and not a single value. -/
def Part (a : SymInt) : Prop := a.Atomic ∧ a.lo < a.hi

lemma kind_part : Kind Part fun _ => True := ⟨And.left, And.right, fun _ => trivial⟩

/-- A number, a multiple of a part or a sum of multiples of distinct parts. -/
abbrev Linear (e : SymInt) : Prop := Flat Part (fun _ => True) e

def indicator (key : String) (a : SymInt) : Int := if a.key = key then 1 else 0

def termKey (g : String × Int) : String :=
  if g.2 = 1 then g.1 else "(" ++ g.1 ++ "*" ++ toString g.2 ++ ")"

def table (ts : List SymInt) : List (String × Int) :=
  ts.map (fun t => (t.atomCoeff.1.key, t.atomCoeff.2))

lemma Multiple.key_eq (h : Multiple Part (fun _ => True) t) :
    t.key = termKey (t.atomCoeff.1.key, t.atomCoeff.2) := by
  cases h with
  | one ha => rw [ha.1.flat.2.2, termKey, if_pos rfl]
  | @mul a c _ _ h1 _ _ _ =>
    rw [termKey, if_neg (show (SymInt.mul a c).atomCoeff.2 ≠ 1 from h1)]
    rfl

def coeffIn (gs : List (String × Int)) (key : String) : Int :=
  (gs.map (fun g => if g.1 = key then g.2 else 0)).sum

lemma weigh_indicator (key : String) (ts : List SymInt) :
    weigh (indicator key) (ts.map atomCoeff) = coeffIn (table ts) key := by
  rw [weigh, coeffIn, table, List.map_map, List.map_map]
  refine congrArg List.sum (map_congr_left fun t _ => ?_)
  simp [indicator]

section
variable {gs hs : List (String × Int)} {g : String × Int}

lemma coeffIn_of_not_mem {key : String} (h : key ∉ gs.map fst) : coeffIn gs key = 0 := by
  refine sum_eq_zero fun x hx => ?_
  obtain ⟨g, hg, rfl⟩ := mem_map.1 hx
  exact if_neg fun he => h (mem_map.2 ⟨g, hg, he⟩)

lemma coeffIn_of_mem (hk : (gs.map fst).Nodup) (hg : g ∈ gs) : coeffIn gs g.1 = g.2 := by
  induction gs with
  | nil => cases hg
  | cons x gs ih =>
    obtain ⟨hn, hk⟩ := nodup_cons.1 hk
    rw [coeffIn, map_cons, sum_cons]
    obtain rfl | hg := mem_cons.1 hg
    · rw [if_pos rfl, ← coeffIn, coeffIn_of_not_mem hn, add_zero]
    · have hne : x.1 ≠ g.1 := fun he => hn (he ▸ mem_map_of_mem hg)
      rw [if_neg hne, ← coeffIn, ih hk hg, zero_add]

lemma mem_of_coeffIn (hkg : (gs.map fst).Nodup) (hkh : (hs.map fst).Nodup)
    (h : ∀ key, coeffIn gs key = coeffIn hs key) (hg : g ∈ gs) (h0 : g.2 ≠ 0) : g ∈ hs := by
  have hc := h g.1
  rw [coeffIn_of_mem hkg hg] at hc
  by_cases hmem : g.1 ∈ hs.map fst
  · obtain ⟨g', hg', he⟩ := mem_map.1 hmem
    rw [← he, coeffIn_of_mem hkh hg'] at hc
    rwa [show g = g' from Prod.ext he.symm hc]
  · rw [coeffIn_of_not_mem hmem] at hc
    exact (h0 hc).elim

/-- Tables without zeros hold the same entries if they give the same coefficients. -/
lemma perm_of_coeffIn (hkg : (gs.map fst).Nodup) (hkh : (hs.map fst).Nodup)
    (hg : ∀ g ∈ gs, g.2 ≠ 0) (hh : ∀ g ∈ hs, g.2 ≠ 0)
    (h : ∀ key, coeffIn gs key = coeffIn hs key) :
    gs.Perm hs :=
  (perm_ext_iff_of_nodup (Nodup.of_map _ hkg) (Nodup.of_map _ hkh)).2 fun g =>
    ⟨fun hm => mem_of_coeffIn hkg hkh h hm (hg g hm),
      fun hm => mem_of_coeffIn hkh hkg (fun key => (h key).symm) hm (hh g hm)⟩

end

/-- How the key of a sum is written, also where it has no terms or only one. -/
def joined : List String → String
  | [] => "0"
  | [s] => s
  | ss => joinSorted "+" ss

lemma joined_perm {ss ss' : List String} (h : ss.Perm ss') : joined ss = joined ss' := by
  cases ss with
  | nil => rw [h.nil_eq]
  | cons s ss =>
    cases ss with
    | nil => rw [singleton_perm.1 h]
    | cons s' ss =>
      have hlen := h.length_eq
      obtain _ | ⟨_, _ | ⟨_, _⟩⟩ := ss'
      · cases hlen
      · cases hlen
      · exact joinSorted_perm "+" h

lemma Flat.key_joined (h : Linear e) :
    e.key = joined ((withConstant e.symbols e.constant).map key) := by
  obtain ⟨-, ⟨he, hs⟩ | ⟨hs, hc⟩ | ⟨h2, he⟩⟩ := h.parts kind_part
  · rw [hs]
    nth_rewrite 1 [he]
    unfold withConstant
    split
    · next h0 =>
      rw [h0]
      decide
    · rfl
  · rw [hs, hc]
    rfl
  · have hlen : 2 ≤ ((withConstant e.symbols e.constant).map SymInt.key).length := by
      simpa using h2
    nth_rewrite 1 [he]
    rw [key, renderWith, renderAll_key]
    generalize (withConstant e.symbols e.constant).map SymInt.key = ss at hlen
    obtain _ | ⟨_, _ | ⟨_, _⟩⟩ := ss
    · simp at hlen
    · simp at hlen
    · rfl

lemma key_of_gauge (ha : Linear a) (hb : Linear b)
    (h0 : a.gauge (fun _ => 0) = b.gauge (fun _ => 0))
    (h : ∀ key, a.gauge (indicator key) = b.gauge (indicator key)) : a.key = b.key := by
  have hta := ha.loose kind_part
  have htb := hb.loose kind_part
  have hna := (ha.parts kind_part).1
  have hnb := (hb.parts kind_part).1
  have hconst : a.constant = b.constant := by
    have hzero (e : SymInt) : e.gauge (fun _ => 0) = e.constant := by
      have hweigh : weigh (fun _ => 0) (e.symbols.map atomCoeff) = 0 := sum_eq_zero (by simp)
      exact (congrArg (e.constant + ·) hweigh).trans (add_zero _)
    rwa [hzero, hzero] at h0
  have hcoeff (key : String) : coeffIn (table a.symbols) key = coeffIn (table b.symbols) key := by
    have hkey : a.constant + _ = b.constant + _ := h key
    rw [hconst] at hkey
    rw [← weigh_indicator, ← weigh_indicator]
    exact add_left_cancel hkey
  have hnodup {ts : List SymInt} (h : (ts.map (fun t => t.atomCoeff.1.key)).Nodup) :
      ((table ts).map fst).Nodup := by
    rwa [table, List.map_map]
  have hnonzero {ts : List SymInt} (h : ∀ t ∈ ts, Multiple Part (fun _ => True) t) :
      ∀ g ∈ table ts, g.2 ≠ 0 := by
    simpa [table] using fun t ht => ((h t ht).atomCoeff kind_part).2.1
  have hkeys {ts : List SymInt} (h : ∀ t ∈ ts, Multiple Part (fun _ => True) t) :
      ts.map key = (table ts).map termKey := by
    rw [table, List.map_map]
    exact map_congr_left fun t ht => (h t ht).key_eq
  have hperm : (a.symbols.map key).Perm (b.symbols.map key) := by
    rw [hkeys hta, hkeys htb]
    exact (perm_of_coeffIn (hnodup hna) (hnodup hnb) (hnonzero hta) (hnonzero htb) hcoeff).map _
  rw [ha.key_joined, hb.key_joined, hconst]
  refine joined_perm ?_
  unfold withConstant
  split
  · exact hperm
  · rw [map_append, map_append]
    exact hperm.append_right _

/-! Linear combinations as they are written down. -/

/-- An atom that a combination may be made of. -/
structure Atom where
  expr : SymInt
  part : Part expr

inductive Combination where
  | num (n : Int)
  | atom (a : Atom)
  | plus (x y : Combination)
  | minus (x y : Combination)
  | negate (x : Combination)
  | times (x : Combination) (c : Int)
  | sum (xs : List Combination)

namespace Combination

mutual

def build : Combination → Checked SymInt
  | num n => .ok (.num n)
  | atom a => .ok a.expr
  | plus x y => do (← x.build).plus (← y.build)
  | minus x y => do (← x.build).minus (← y.build)
  | negate x => do (← x.build).negate
  | times x c => do (← x.build).times c
  | sum xs => do total (← buildAll xs)

def buildAll : List Combination → Checked (List SymInt)
  | [] => .ok []
  | x :: xs => return (← x.build) :: (← buildAll xs)

end

mutual

/-- What the combination comes to if one counts `one` and the atoms count `φ`. -/
def weight (one : Int) (φ : SymInt → Int) : Combination → Int
  | num n => n * one
  | atom a => φ a.expr
  | plus x y => x.weight one φ + y.weight one φ
  | minus x y => x.weight one φ - y.weight one φ
  | negate x => -x.weight one φ
  | times x c => x.weight one φ * c
  | sum xs => weightAll one φ xs

def weightAll (one : Int) (φ : SymInt → Int) : List Combination → Int
  | [] => 0
  | x :: xs => x.weight one φ + weightAll one φ xs

end

def constant (x : Combination) : Int := x.weight 1 (fun _ => 0)

def coeff (x : Combination) (key : String) : Int := x.weight 0 (indicator key)

mutual

lemma weight_add (φ : SymInt → Int) (x : Combination) :
    x.weight 1 φ = x.weight 1 (fun _ => 0) + x.weight 0 φ := by
  cases x with
  | num _ | atom _ => simp [weight]
  | plus x y | minus x y =>
    rw [weight, weight, weight, weight_add φ x, weight_add φ y]
    ring
  | negate x | times x _ =>
    rw [weight, weight, weight, weight_add φ x]
    ring
  | sum xs => rw [weight, weight, weight, weightAll_add φ xs]

lemma weightAll_add (φ : SymInt → Int) (xs : List Combination) :
    weightAll 1 φ xs = weightAll 1 (fun _ => 0) xs + weightAll 0 φ xs := by
  cases xs with
  | nil => rfl
  | cons x xs =>
    rw [weightAll, weightAll, weightAll, weight_add φ x, weightAll_add φ xs]
    ring

end

/-- What is built is linear, and comes to what the combination comes to. -/
def Gauged (e : SymInt) (w : (SymInt → Int) → Int) : Prop :=
  Linear e ∧ ∀ φ, ByKey Part φ → e.gauge φ = w φ

lemma total_gauged {es : List SymInt} {w : (SymInt → Int) → Int} (h : ∀ e ∈ es, Linear e)
    (hw : ∀ φ, ByKey Part φ → (es.map (gauge φ)).sum = w φ) :
    Returns .arithmetic (total es) (Gauged · w) :=
  .of_overflow (total_overflow es) fun r hr =>
    have hloose : ∀ e ∈ es, Loose Part (fun _ => True) e := fun e he => (h e he).loose kind_part
    ⟨(total_flat kind_part hloose hr).1.elim (h r) id, fun φ hφ =>
      (total_gauge_of kind_part hφ hloose hr).trans (hw φ hφ)⟩

lemma Gauged.plus {y : (SymInt → Int) → Int} (ha : Gauged a x) (hb : Gauged b y) :
    Returns .arithmetic (a.plus b) (Gauged · fun φ => x φ + y φ) :=
  total_gauged (by simpa using ⟨ha.1, hb.1⟩) fun φ hφ => by simp [ha.2 φ hφ, hb.2 φ hφ]

lemma Gauged.times (ha : Gauged a x) :
    Returns .arithmetic (a.times c) (Gauged · fun φ => x φ * c) :=
  .of_overflow (times_overflow a c) fun r hr => by
    obtain ⟨hshape, _, hg⟩ := times_multiplies kind_part a (ha.1.loose kind_part) trivial hr
    refine ⟨?_, fun φ hφ => by rw [hg φ hφ, ha.2 φ hφ]⟩
    obtain ⟨_, rfl⟩ | hflat := hshape
    · exact ha.1
    · exact hflat

lemma Gauged.negate (ha : Gauged a x) :
    Returns .arithmetic a.negate (Gauged · fun φ => -x φ) := by
  refine ha.times.weaken fun r hr => ⟨hr.1, fun φ hφ => ?_⟩
  rw [hr.2 φ hφ]
  ring

mutual

lemma build_gauged (x : Combination) :
    Returns .arithmetic x.build (Gauged · fun φ => x.weight 1 φ) := by
  cases x with
  | num n => exact .ok ⟨.num trivial, fun φ _ => by simp [weight]⟩
  | atom a =>
    obtain ⟨hs, hn, he⟩ := a.part.1.flat
    exact .ok ⟨.term (.one a.part), fun φ _ => by simp [gauge_term hs hn, he, weight]⟩
  | plus x y =>
    rw [build]
    exact (build_gauged x).bind fun a _ ha => (build_gauged y).bind fun b _ hb =>
      (ha.plus hb).weaken fun r hr => by simpa only [weight] using hr
  | minus x y =>
    rw [build]
    refine (build_gauged x).bind fun a _ ha => (build_gauged y).bind fun b _ hb => ?_
    refine hb.negate.bind fun n _ hn => (ha.plus hn).weaken fun r hr => ?_
    simpa only [weight, sub_eq_add_neg] using hr
  | negate x =>
    rw [build]
    exact (build_gauged x).bind fun a _ ha => ha.negate.weaken fun r hr => by
      simpa only [weight] using hr
  | times x c =>
    rw [build]
    exact (build_gauged x).bind fun a _ ha => ha.times.weaken fun r hr => by
      simpa only [weight] using hr
  | sum xs =>
    rw [build]
    refine (buildAll_gauged xs).bind fun es _ hes => (total_gauged hes.1 hes.2).weaken
      fun r hr => ?_
    simpa only [weight] using hr

lemma buildAll_gauged (xs : List Combination) : Returns .arithmetic (buildAll xs) (fun es =>
    (∀ e ∈ es, Linear e) ∧ ∀ φ, ByKey Part φ →
      (es.map (gauge φ)).sum = weightAll 1 φ xs) := by
  cases xs with
  | nil => exact .ok ⟨by simp, by simp [weightAll]⟩
  | cons x xs =>
    rw [buildAll]
    refine (build_gauged x).bind fun e _ he => (buildAll_gauged xs).bind fun es _ hes => .ok ?_
    exact ⟨forall_mem_cons.2 ⟨he.1, hes.1⟩, fun φ hφ =>
      by simp [weightAll, he.2 φ hφ, hes.2 φ hφ]⟩

end

/-- Combinations with the same constant and the same coefficients are built to expressions with one
key, unless building one of them overflows. -/
theorem build_canonical (x y : Combination) (h0 : x.constant = y.constant)
    (h : ∀ key, x.coeff key = y.coeff key) :
    x.build = .error .arithmetic ∨ y.build = .error .arithmetic ∨
      ∃ a b, x.build = .ok a ∧ y.build = .ok b ∧ a.key = b.key := by
  obtain hx | ⟨a, ha, hfa, hga⟩ := x.build_gauged
  · exact .inl hx
  obtain hy | ⟨b, hb, hfb, hgb⟩ := y.build_gauged
  · exact .inr (.inl hy)
  have hindicator (key : String) : ByKey Part (indicator key) := fun _ _ h => by
    rw [indicator, indicator, h]
  refine .inr (.inr ⟨a, b, ha, hb, key_of_gauge hfa hfb ?_ fun key => ?_⟩)
  · rw [hga _ fun _ _ _ => rfl, hgb _ fun _ _ _ => rfl]
    exact h0
  · rw [hga _ (hindicator key), hgb _ (hindicator key)]
    simp only [weight_add (indicator key)]
    exact congrArg₂ _ h0 (h key)

def row : Atom := ⟨var ⟨"row", 0, 7⟩, trivial, by decide⟩

def half : Atom := ⟨div (var ⟨"row", 0, 7⟩) 4, trivial, by decide⟩

/-- Three rows and a half less a row and with two more, in another order. -/
theorem scattered_canonical : ∃ a b,
    (sum [minus (plus (times (atom row) 3) (atom half)) (atom row), num 2]).build = .ok a ∧
    (plus (sum [num 5, atom half, times (atom row) 2]) (negate (num 3))).build = .ok b ∧
    a.terms.map key ≠ b.terms.map key ∧ a.key = b.key := by
  obtain h | h | ⟨a, b, ha, hb, hkey⟩ := build_canonical
    (sum [minus (plus (times (atom row) 3) (atom half)) (atom row), num 2])
    (plus (sum [num 5, atom half, times (atom row) 2]) (negate (num 3))) (by decide) (fun key => by
      simp only [coeff, weight, weightAll]
      ring)
  · cases h
  · cases h
  · refine ⟨a, b, ha, hb, ?_, hkey⟩
    cases ha
    cases hb
    decide

end Combination

end LazyTensor.SymInt
