import LazyTensor.Proofs.Decimal.Text
import LazyTensor.Proofs.OpTree.Readable

/-! The key of a tree tells the tree. -/
namespace LazyTensor
open Text List

namespace Decimal
variable {x y : Double}

lemma reads_of_spells {text : Double → String} {c : Char} (hc : c = ' ' ∨ c = ')')
    (hspells : ∀ {x : Double}, x.isNaN = false → Spells x.number (text x).toList)
    (hx : x.isNaN = false) (hy : y.isNaN = false) :
    Reads text (Starts c) (fun x y => x.same y = true) x y := by
  rintro _ _ ⟨s, rfl⟩ ⟨t, rfl⟩ h
  have hrun {z : Double} (hz : z.isNaN = false) : ∀ d ∈ (text z).toList, (d != c) = true := by
    intro d hd
    have hout := (hspells hz).chars d hd
    rw [bne_iff_ne]
    rintro rfl
    obtain rfl | rfl := hc <;> exact hout (by decide)
  have hstop (s : List Char) : Stops (fun d => d != c) (c :: s) := stops_cons (by simp)
  obtain ⟨htext, h⟩ := append_inj_of_stops (hrun hx) (hrun hy) (hstop s) (hstop t) h
  have hnumber := (hspells hx).unique (htext ▸ hspells hy)
  exact ⟨number_inj hnumber, h⟩

lemma plain_read (hx : x.isNaN = false) (hy : y.isNaN = false) :
    Reads plain (Starts ' ') (fun x y => x.same y = true) x y :=
  reads_of_spells (.inl rfl) plain_spells hx hy

lemma pointed_read (hx : x.isNaN = false) (hy : y.isNaN = false) :
    Reads pointed (Starts ')') (fun x y => x.same y = true) x y :=
  reads_of_spells (.inr rfl) pointed_spells hx hy

end Decimal

namespace OpArg
variable {k : Kind} {s t : List Char}

/-- The operation whose leaves carry such an argument. -/
def leaf? : OpArg → Option BufferOp
  | mem _ => some .mem
  | constBuf _ => some .const
  | _ => Option.none

/-- Constants are numbers, names are identifiers, and there is no host function. -/
def Clear : OpArg → Prop
  | shape s => s.Named
  | const x => x.isNaN = false
  | custom _ => False
  | mem m => m.layout.Named
  | constBuf c => c.value.isNaN = false ∧ c.layout.Named
  | _ => True

/-- The constructors of arguments that no leaf carries. -/
inductive Kind where
  | none
  | shape
  | axes
  | pairs
  | strides
  | cast
  | const
  | seed
  deriving DecidableEq

/-- The first characters of an argument; where there is none, the bracket that closes the node. -/
def Kind.opening : Kind → String
  | none => ")"
  | shape => " Shape("
  | axes => " Axes("
  | pairs => " Pairs("
  | strides => " Strides("
  | cast => " Cast("
  | const => " Const(ConstValue("
  | seed => " Seed("

def Kind.all : List Kind := [none, shape, axes, pairs, strides, cast, const, seed]

lemma Kind.mem_all (k : Kind) : k ∈ all := by
  cases k <;> decide

lemma Kind.opening_read (k k' : Kind) : Reads opening Any Eq k k' :=
  code_read all (by decide) k.mem_all k'.mem_all

def kind? : OpArg → Option Kind
  | none => some .none
  | shape _ => some .shape
  | axes _ => some .axes
  | pairs _ => some .pairs
  | strides _ => some .strides
  | cast _ _ => some .cast
  | const _ => some .const
  | seed _ => some .seed
  | custom _ | mem _ | constBuf _ => Option.none

/-- What stands between the opening of an argument and the bracket that closes its node. -/
def contents : OpArg → List Char → List Char
  | shape x, s => x.debug.toList ++ ')' :: ')' :: s
  | axes x, s => (Text.nats x).toList ++ ')' :: ')' :: s
  | pairs x, s => (Text.pairs x).toList ++ ')' :: ')' :: s
  | strides x, s => (Text.ints x).toList ++ ')' :: ')' :: s
  | cast e b, s => e.debug.toList ++ ',' :: ' ' :: ((Text.flag b).toList ++ ')' :: ')' :: s)
  | const x, s => (Decimal.pointed x).toList ++ ')' :: ')' :: ')' :: s
  | seed n, s => (toString n).toList ++ ')' :: ')' :: s
  | _, s => s

variable {a b : OpArg}

lemma exists_kind (hleaf : a.leaf? = Option.none) (ha : a.Clear) : ∃ k, a.kind? = some k := by
  cases a with
  | custom f => exact ha.elim
  | mem m | constBuf c => cases hleaf
  | _ => exact ⟨_, rfl⟩

lemma toList_wrapped {first : String} (before after : String)
    (h : first.toList = ' ' :: before.toList) (text : String) (s : List Char) :
    (" " ++ (before ++ text ++ after)).toList ++ ')' :: s =
      first.toList ++ (text.toList ++ (after.toList ++ ')' :: s)) := by
  simp [h]

lemma toList_key (h : a.kind? = some k) (s : List Char) :
    a.key.toList ++ ')' :: s = k.opening.toList ++ a.contents s := by
  cases a with
  | custom f | mem m | constBuf c => cases h
  | none =>
    cases h
    rfl
  | shape x =>
    cases h
    exact toList_wrapped "Shape(" ")" rfl x.debug s
  | axes x =>
    cases h
    exact toList_wrapped "Axes(" ")" rfl (Text.nats x) s
  | pairs x =>
    cases h
    exact toList_wrapped "Pairs(" ")" rfl (Text.pairs x) s
  | strides x =>
    cases h
    exact toList_wrapped "Strides(" ")" rfl (Text.ints x) s
  | cast e bitcast =>
    cases h
    have htext : OpArg.key (cast e bitcast) =
        " " ++ ("Cast" ++ parens [e.debug, Text.flag bitcast]) := rfl
    rw [htext]
    simp [Kind.opening, contents, parens, toList_commas_cons]
  | const x =>
    cases h
    exact toList_wrapped "Const(ConstValue(" "))" rfl (Decimal.pointed x) s
  | seed n =>
    cases h
    exact toList_wrapped "Seed(" ")" rfl (toString n) s

lemma contents_read (hka : a.kind? = some k) (hkb : b.kind? = some k) (ha : a.Clear)
    (hb : b.Clear) (h : a.contents s = b.contents t) : a.same b = true ∧ s = t := by
  have hkind := hka.trans hkb.symm
  cases a with
  | custom | mem | constBuf => cases hka
  | none =>
    cases b with
    | none => exact ⟨rfl, h⟩
    | _ => cases hkind
  | shape x =>
    cases b with
    | shape y =>
      obtain ⟨hxy, h⟩ := Shape.debug_read ha hb _ _ trivial trivial h
      exact ⟨hxy, by simpa using h⟩
    | _ => cases hkind
  | axes x =>
    cases b with
    | axes y =>
      obtain ⟨hxy, h⟩ := nats_read x y _ _ trivial trivial h
      exact ⟨beq_iff_eq.2 hxy, by simpa using h⟩
    | _ => cases hkind
  | pairs x =>
    cases b with
    | pairs y =>
      obtain ⟨hxy, h⟩ := pairs_read x y _ _ trivial trivial h
      exact ⟨beq_iff_eq.2 hxy, by simpa using h⟩
    | _ => cases hkind
  | strides x =>
    cases b with
    | strides y =>
      obtain ⟨hxy, h⟩ := ints_read x y _ _ trivial trivial h
      exact ⟨beq_iff_eq.2 hxy, by simpa using h⟩
    | _ => cases hkind
  | cast x p =>
    cases b with
    | cast y q =>
      obtain ⟨hxy, h⟩ := Element.written_debug.read x y _ _ ⟨_, rfl⟩ ⟨_, rfl⟩ h
      obtain ⟨hpq, h⟩ := flag_read p q _ _ trivial trivial (cons.inj (cons.inj h).2).2
      exact ⟨Bool.and_eq_true_iff.2 ⟨beq_iff_eq.2 hxy, beq_iff_eq.2 hpq⟩, by simpa using h⟩
    | _ => cases hkind
  | const x =>
    cases b with
    | const y =>
      obtain ⟨hxy, h⟩ := Decimal.pointed_read ha hb _ _ ⟨_, rfl⟩ ⟨_, rfl⟩ h
      exact ⟨hxy, by simpa using h⟩
    | _ => cases hkind
  | seed x =>
    cases b with
    | seed y =>
      obtain ⟨hxy, h⟩ := reads_nat x y _ _ (stops_cons (by decide)) (stops_cons (by decide)) h
      exact ⟨beq_iff_eq.2 hxy, by simpa using h⟩
    | _ => cases hkind

lemma toList_leaf (first : String) (e : Element) (l : Layout) (s : List Char) :
    (" " ++ first ++ " " ++ e.text ++ " " ++ l.debug).toList ++ s =
      ' ' :: (first.toList ++ ' ' :: (e.text.toList ++ ' ' :: (l.debug.toList ++ s))) := by
  simp

lemma leaf_rest_read {d e : Element} {l l' : Layout} (hl : l.Named) (hl' : l'.Named)
    (h : d.text.toList ++ ' ' :: (l.debug.toList ++ s) =
      e.text.toList ++ ' ' :: (l'.debug.toList ++ t)) : (d == e && l == l') = true ∧ s = t := by
  obtain ⟨helement, h⟩ := Element.written_text.read d e _ _ ⟨_, rfl⟩ ⟨_, rfl⟩ h
  obtain ⟨hlayout, h⟩ := Layout.debug_read hl hl' _ _ trivial trivial (cons.inj h).2
  exact ⟨by simp [helement, hlayout], h⟩

lemma key_mem (m : SlotRef) : key (mem m) =
    " " ++ toString m.slot ++ " " ++ m.element.text ++ " " ++ m.layout.debug := rfl

lemma key_constBuf (c : ConstRef) : key (constBuf c) =
    " " ++ Decimal.plain c.value ++ " " ++ c.element.text ++ " " ++ c.layout.debug := rfl

lemma slot_read {m n : SlotRef} (hm : m.layout.Named) (hn : n.layout.Named)
    (h : (key (mem m)).toList ++ s = (key (mem n)).toList ++ t) :
    (mem m == mem n) = true ∧ s = t := by
  rw [key_mem, key_mem, toList_leaf, toList_leaf] at h
  obtain ⟨hslot, h⟩ := reads_nat _ _ _ _ (stops_cons (by decide)) (stops_cons (by decide))
    (cons.inj h).2
  obtain ⟨hrest, h⟩ := leaf_rest_read hm hn (cons.inj h).2
  refine ⟨?_, h⟩
  show (m.slot == n.slot && m.element == n.element && m.layout == n.layout) = true
  rw [Bool.and_assoc, hrest, hslot, beq_self_eq_true, Bool.and_self]

lemma constant_read {c d : ConstRef} (hc : Clear (constBuf c)) (hd : Clear (constBuf d))
    (h : (key (constBuf c)).toList ++ s = (key (constBuf d)).toList ++ t) :
    (constBuf c == constBuf d) = true ∧ s = t := by
  rw [key_constBuf, key_constBuf, toList_leaf, toList_leaf] at h
  obtain ⟨hvalue, h⟩ := Decimal.plain_read hc.1 hd.1 _ _ ⟨_, rfl⟩ ⟨_, rfl⟩
    (cons.inj h).2
  obtain ⟨hrest, h⟩ := leaf_rest_read hc.2 hd.2 (cons.inj h).2
  refine ⟨?_, h⟩
  show (c.value.same d.value && c.element == d.element && c.layout == d.layout) = true
  rw [Bool.and_assoc, hrest, hvalue, Bool.and_self]

lemma key_read (hleaf : a.leaf? = b.leaf?) (ha : a.Clear) (hb : b.Clear) :
    Reads key (Starts ')') (fun a b => (a == b) = true) a b := by
  rintro _ _ ⟨s, rfl⟩ ⟨t, rfl⟩ h
  cases hop : a.leaf? with
  | none =>
    obtain ⟨k, hka⟩ := exists_kind hop ha
    obtain ⟨k', hkb⟩ := exists_kind (hleaf ▸ hop) hb
    rw [toList_key hka, toList_key hkb] at h
    obtain ⟨hk, hcontents⟩ := k.opening_read k' _ _ trivial trivial h
    obtain ⟨hab, rfl⟩ := contents_read hka (hk ▸ hkb) ha hb hcontents
    exact ⟨hab, rfl⟩
  | some op =>
    cases a with
    | mem m =>
      cases b with
      | mem n => exact slot_read ha hb h
      | _ => cases hleaf
    | constBuf c =>
      cases b with
      | constBuf d => exact constant_read ha hb h
      | _ => cases hleaf
    | _ => cases hop

/-- A line on which no source comes next. -/
def NoSource (s : List Char) : Prop := ¬ [' ', '('] <+: s

lemma noSource_leaf {text s : List Char} (h : '(' ∉ text) : NoSource
    (' ' :: (text ++ ' ' :: s)) := by
  intro hprefix
  have hnext := (cons_prefix_cons.1 hprefix).2
  cases text with
  | nil => exact absurd (cons_prefix_cons.1 hnext).1 (by decide)
  | cons c cs => exact h (mem_cons.2 (.inl (cons_prefix_cons.1 hnext).1))

lemma Kind.noSource (k : Kind) (s : List Char) : NoSource (k.opening.toList ++ s) := by
  intro hprefix
  have hclash : ∀ k ∈ all, (k.opening.toList <+: [' ', '('] → False) ∧
      ([' ', '('] <+: k.opening.toList → False) := by decide
  obtain hlong | hshort := prefix_or_prefix_of_prefix (prefix_append _ s) hprefix
  · exact (hclash k k.mem_all).1 hlong
  · exact (hclash k k.mem_all).2 hshort

lemma key_noSource (ha : a.Clear) (s : List Char) : NoSource (a.key.toList ++ ')' :: s) := by
  cases hop : a.leaf? with
  | none =>
    obtain ⟨k, hk⟩ := exists_kind hop ha
    rw [toList_key hk]
    exact k.noSource _
  | some op =>
    cases a with
    | mem m =>
      rw [key_mem, toList_leaf]
      refine noSource_leaf fun hdigit => ?_
      rw [show (toString m.slot).toList = Nat.toDigits 10 m.slot from Nat.toList_repr] at hdigit
      exact absurd (isDigit_toDigits hdigit) (by decide)
    | constBuf c =>
      rw [key_constBuf, toList_leaf]
      exact noSource_leaf fun hmem => (Decimal.plain_spells ha.1).chars _ hmem (by decide)
    | _ => cases hop

end OpArg

def Op.leaf? : Op → Option BufferOp
  | .buffer op => some op
  | _ => none

/-- A slot is carried by `MEM` and a constant by `CONST`, and nothing else carries one. -/
structure OpTree.Carries (n : OpTree) : Prop where
  leaf : n.arg.leaf? = n.op.leaf?
  clear : n.arg.Clear

namespace Source

lemma toList_key (op : Op) (arg : OpArg) (srcs : List Source) (s : List Char) :
    (key (apply op arg srcs)).toList ++ s =
      '(' :: (op.text.toList ++ ((keyAll srcs).toList ++ (arg.key.toList ++ ')' :: s))) := by
  simp [key]

lemma toList_keyAll (a : Source) (as : List Source) (s : List Char) :
    (keyAll (a :: as)).toList ++ s = ' ' :: (a.key.toList ++ ((keyAll as).toList ++ s)) := by
  simp [keyAll]

lemma not_noSource {a : Source} (as : List Source) (ha : a.buffers = []) (s : List Char) :
    ¬ OpArg.NoSource ((keyAll (a :: as)).toList ++ s) := by
  cases a with
  | buffer id => cases ha
  | apply op arg _ =>
    rw [toList_keyAll, toList_key]
    exact not_not.2 ⟨_, rfl⟩

mutual

lemma key_read {a b : Source} (ha : a.buffers = []) (hb : b.buffers = [])
    (hca : ∀ n ∈ a.trees, n.Carries) (hcb : ∀ n ∈ b.trees, n.Carries) :
    Text.Reads key Any (fun a b => a.same b = true) a b := by
  intro s t _ _ h
  cases a with
  | buffer id => cases ha
  | apply op arg srcs =>
    cases b with
    | buffer id => cases hb
    | apply op' arg' srcs' =>
      obtain ⟨hroot, hca⟩ := forall_mem_cons.1 hca
      obtain ⟨hroot', hcb⟩ := forall_mem_cons.1 hcb
      rw [toList_key, toList_key] at h
      obtain ⟨hop, h⟩ := op.text_read op' _ _ trivial trivial (cons.inj h).2
      obtain ⟨hsrcs, h⟩ := keyAll_read ha hb hca hcb (OpArg.key_noSource hroot.clear s)
        (OpArg.key_noSource hroot'.clear t) h
      have hleaf : arg.leaf? = arg'.leaf? := hroot.leaf.trans (hop ▸ hroot'.leaf.symm)
      obtain ⟨harg, h⟩ := OpArg.key_read hleaf hroot.clear hroot'.clear _ _ ⟨_, rfl⟩
        ⟨_, rfl⟩ h
      refine ⟨?_, (cons.inj h).2⟩
      show (op == op' && arg == arg' && sameAll srcs srcs') = true
      rw [hop, harg, hsrcs, beq_self_eq_true, Bool.and_self, Bool.and_self]

lemma keyAll_read {as bs : List Source} (ha : buffersAll as = []) (hb : buffersAll bs = [])
    (hca : ∀ n ∈ treesAll as, n.Carries) (hcb : ∀ n ∈ treesAll bs, n.Carries)
    {s t : List Char} (hs : OpArg.NoSource s) (ht : OpArg.NoSource t)
    (h : (keyAll as).toList ++ s = (keyAll bs).toList ++ t) : sameAll as bs = true ∧ s = t := by
  cases as with
  | nil =>
    cases bs with
    | nil => exact ⟨rfl, h⟩
    | cons b bs => exact (not_noSource bs (append_eq_nil_iff.1 hb).1 t (h ▸ hs)).elim
  | cons a as =>
    obtain ⟨ha, has⟩ := append_eq_nil_iff.1 ha
    cases bs with
    | nil => exact (not_noSource as ha s (h ▸ ht)).elim
    | cons b bs =>
      obtain ⟨hb, hbs⟩ := append_eq_nil_iff.1 hb
      obtain ⟨hca, hcas⟩ := forall_mem_append.1 hca
      obtain ⟨hcb, hcbs⟩ := forall_mem_append.1 hcb
      rw [toList_keyAll, toList_keyAll] at h
      obtain ⟨hfirst, h⟩ := key_read ha hb hca hcb _ _ trivial trivial (cons.inj h).2
      obtain ⟨hrest, h⟩ := keyAll_read has hbs hcas hcbs hs ht h
      exact ⟨Bool.and_eq_true_iff.2 ⟨hfirst, hrest⟩, h⟩

end

end Source

namespace OpTree

/-- A tree over slots and constants, as it is scheduled. -/
structure Keyed (t : OpTree) : Prop where
  leaves : t.buffers = []
  carries : ∀ n ∈ t.trees, n.Carries

lemma Keyed.beq_of_append {t t' : OpTree} (ht : t.Keyed) (ht' : t'.Keyed) {s s' : String}
    (h : t.key ++ s = t'.key ++ s') : (t == t') = true := by
  have hline := congrArg String.toList h
  rw [String.toList_append, String.toList_append] at hline
  exact (Source.key_read (a := .ofTree t) (b := .ofTree t') ht.leaves ht'.leaves ht.carries
    ht'.carries _ _ trivial trivial hline).1

end OpTree

namespace Compiler

/-- Trees with the key of one cache entry are the same tree. -/
theorem tree_eq_of_key_eq {t t' : OpTree} (ht : t.Keyed) (ht' : t'.Keyed) (h : key t = key t') :
    (t == t') = true := by
  simp only [key, String.append_assoc] at h
  exact ht.beq_of_append ht' h

def negated (arg : OpArg) (layout : Layout) : OpTree :=
  { op := .unary .neg, arg, srcs := [.ofTree (.mem 1 .float32 layout)] }

lemma negated_trees {arg : OpArg} {layout : Layout} {P : OpTree → Prop}
    (hroot : P (negated arg layout)) (hleaf : P (.mem 1 .float32 layout)) :
    ∀ n ∈ (negated arg layout).trees, P n :=
  forall_mem_cons.2 ⟨hroot, forall_mem_singleton.2 hleaf⟩

def row (cells : SymInt) : Layout :=
  { top := { shape := [cells], strides := [1], offset := 0, mask := none, contiguous := true } }

lemma row_named {cells : SymInt} (h : cells.Named) : (row cells).Named :=
  forall_mem_singleton.2 (forall_mem_singleton.2 h)

lemma row_debug {a b : SymInt} (h : a.key = b.key) : (row a).debug = (row b).debug := by
  have hview : (row a).top.debug = (row b).top.debug := by
    simp only [View.debug, row, Shape.debug, map_cons, map_nil, SymInt.debug, h]
  show Text.braces "ShapeTracker" ["views: " ++ Text.brackets [(row a).top.debug]] = _
  rw [hview]
  rfl

/-- The order of a sum does not show in a key, nor does it make another tree. -/
theorem swapped_sum_same_tree : (negated .none (row (.sum [.var ⟨"n", 1, 8⟩, .num 2])) ==
      negated .none (row (.sum [.num 2, .var ⟨"n", 1, 8⟩]))) = true := by
  have hkeyed {parts : List SymInt} (h : SymInt.occurrencesAll parts = [⟨"n", 1, 8⟩]) :
      (negated .none (row (.sum parts))).Keyed := by
    refine ⟨rfl, negated_trees ⟨rfl, trivial⟩ ⟨rfl, row_named ?_⟩⟩
    rw [SymInt.Named, SymInt.occurrences, h]
    exact List.forall_mem_singleton.2 (by decide +kernel)
  refine tree_eq_of_key_eq (hkeyed rfl) (hkeyed rfl) ?_
  have hvars : (negated .none (row (.sum [.var ⟨"n", 1, 8⟩, .num 2]))).vars =
      (negated .none (row (.sum [.num 2, .var ⟨"n", 1, 8⟩]))).vars := by decide +kernel
  have hsum : (SymInt.sum [.var ⟨"n", 1, 8⟩, .num 2]).key =
      (SymInt.sum [.num 2, .var ⟨"n", 1, 8⟩]).key := SymInt.joinSorted_perm "+" (.swap _ _ [])
  rw [key, key, hvars]
  simp only [OpTree.key, negated, Source.ofTree, Source.key, Source.keyAll, OpTree.mem,
    OpArg.key_mem, row_debug hsum]

/-- A slot and a constant are told apart by the operation that carries them only. -/
theorem slot_and_constant_share_key : ∃ t t' : OpTree, (∀ n ∈ t.trees ++ t'.trees,
      n.arg.Clear ∧ ∀ op, n.op.leaf? = some op → n.arg.leaf? = some op) ∧
    t.buffers = [] ∧ t'.buffers = [] ∧ key t = key t' ∧ (t == t') = false := by
  have hnamed : (row (.num 1)).Named := row_named nofun
  refine ⟨negated (.mem ⟨1, .float32, row (.num 1)⟩) (row (.num 1)),
    negated (.constBuf ⟨1.0, .float32, row (.num 1)⟩) (row (.num 1)),
    List.forall_mem_append.2 ⟨?_, ?_⟩, rfl, rfl, by decide +kernel, by decide +kernel⟩
  · exact negated_trees ⟨hnamed, nofun⟩ ⟨hnamed, fun _ h => h⟩
  · exact negated_trees ⟨⟨by decide +kernel, hnamed⟩, nofun⟩ ⟨hnamed, fun _ h => h⟩

end Compiler

end LazyTensor
