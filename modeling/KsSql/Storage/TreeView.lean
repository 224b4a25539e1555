import KsSql.Storage.Node
import Mathlib.Data.List.Nodup
import Mathlib.Logic.Function.Basic

/-!
# A tree as a list of tokens

A subtree is read off the pages as one list, from left to right: a token for each page, for each
separator and for each binding (`tokens`). An inner page's token comes before its children, which
are woven together with its separators; a leaf's comes before its bindings.

The list carries everything that the proofs about insertions follow. Its page ids are the pages the
subtree occupies, its leaf ids the order in which the leaf chain must link them, its bindings the
contents, and its keys, separators included, are in order when every token stands in the relation
`Before` to every later one. A split of a node inserts two tokens, a separator and a page; an
insertion into a leaf inserts one binding, or replaces one. What the two do elsewhere in the tree is
then what they do to a list with something before and something behind.

`Before` takes its strict comparisons from a relation `up`: `≤` gives the weak order, which holds
whatever side of an equal separator a key was sent to, and `<` gives search-tree order, in which the
keys left of a separator are smaller and those right of it are not.
-/

namespace KsSql

/-- What a tree is made of, from left to right. -/
inductive Token (K V : Type)
  /-- The page of an inner node. -/
  | inner (id : Nat)
  /-- The page of a leaf. -/
  | leaf (id : Nat)
  /-- A separator. -/
  | sep (s : K)
  /-- A binding. -/
  | entry (k : K) (v : V)

namespace Token

variable {K V : Type}

/-- The page a token stands for. -/
def id? : Token K V → Option Nat
  | inner p => some p
  | leaf p => some p
  | _ => none

/-- The leaf page a token stands for. -/
def leaf? : Token K V → Option Nat
  | leaf p => some p
  | _ => none

/-- The binding a token stands for. -/
def binding? : Token K V → Option (K × V)
  | entry k v => some (k, v)
  | _ => none

/-- The pages of a list of tokens. -/
def ids (T : List (Token K V)) : List Nat := T.filterMap id?

/-- The leaf pages of a list of tokens. -/
def leafIds (T : List (Token K V)) : List Nat := T.filterMap leaf?

/-- The bindings of a list of tokens. -/
def bindings (T : List (Token K V)) : List (K × V) := T.filterMap binding?

/-- The tokens of a list of bindings. -/
def ofEntries (l : List (K × V)) : List (Token K V) := l.map fun e ↦ .entry e.1 e.2

section Simp

variable (T T' : List (Token K V)) (p : Nat) (k : K) (v : V) (l : List (K × V))

@[simp] theorem ids_nil : ids ([] : List (Token K V)) = [] := rfl
@[simp] theorem ids_append : ids (T ++ T') = ids T ++ ids T' := List.filterMap_append
@[simp] theorem ids_inner : ids (inner p :: T) = p :: ids T := rfl
@[simp] theorem ids_leaf : ids (leaf p :: T) = p :: ids T := rfl
@[simp] theorem ids_sep : ids (sep k :: T) = ids T := rfl
@[simp] theorem ids_entry : ids (entry k v :: T) = ids T := rfl

@[simp] theorem leafIds_nil : leafIds ([] : List (Token K V)) = [] := rfl
@[simp] theorem leafIds_append : leafIds (T ++ T') = leafIds T ++ leafIds T' :=
  List.filterMap_append
@[simp] theorem leafIds_inner : leafIds (inner p :: T) = leafIds T := rfl
@[simp] theorem leafIds_leaf : leafIds (leaf p :: T) = p :: leafIds T := rfl
@[simp] theorem leafIds_sep : leafIds (sep k :: T) = leafIds T := rfl
@[simp] theorem leafIds_entry : leafIds (entry k v :: T) = leafIds T := rfl

@[simp] theorem bindings_nil : bindings ([] : List (Token K V)) = [] := rfl
@[simp] theorem bindings_append : bindings (T ++ T') = bindings T ++ bindings T' :=
  List.filterMap_append
@[simp] theorem bindings_inner : bindings (inner p :: T) = bindings T := rfl
@[simp] theorem bindings_leaf : bindings (leaf p :: T) = bindings T := rfl
@[simp] theorem bindings_sep : bindings (sep k :: T) = bindings T := rfl
@[simp] theorem bindings_entry : bindings (entry k v :: T) = (k, v) :: bindings T := rfl

@[simp] theorem ofEntries_append (l' : List (K × V)) :
    ofEntries (l ++ l') = ofEntries l ++ ofEntries l' := List.map_append
@[simp] theorem ofEntries_cons (e : K × V) :
    ofEntries (e :: l) = entry e.1 e.2 :: ofEntries l := rfl

@[simp] theorem ids_ofEntries : ids (ofEntries l) = [] := by
  induction l with
  | nil => rfl
  | cons e l ih => rw [ofEntries_cons, ids_entry, ih]

@[simp] theorem leafIds_ofEntries : leafIds (ofEntries l) = [] := by
  induction l with
  | nil => rfl
  | cons e l ih => rw [ofEntries_cons, leafIds_entry, ih]

@[simp] theorem bindings_ofEntries : bindings (ofEntries l) = l := by
  induction l with
  | nil => rfl
  | cons e l ih => rw [ofEntries_cons, bindings_entry, ih]

end Simp

/-- The leaf pages are among the pages, in their order. -/
theorem leafIds_sublist_ids (T : List (Token K V)) : (leafIds T).Sublist (ids T) := by
  induction T with
  | nil => exact List.nil_sublist _
  | cons a T ih =>
    cases a with
    | inner q => exact ih.cons q
    | leaf q => exact ih.cons_cons q
    | sep s => exact ih
    | entry k v => exact ih

theorem mem_ids_of_mem_leafIds {T : List (Token K V)} {p : Nat} (h : p ∈ leafIds T) : p ∈ ids T :=
  (leafIds_sublist_ids T).subset h

/-! ### Weaving children and separators -/

/-- Children's tokens with separators between them. -/
def weave (f : Nat → List (Token K V)) : List Nat → List K → List (Token K V)
  | [], _ => []
  | c :: cs, [] => f c ++ weave f cs []
  | c :: cs, s :: ss => f c ++ sep s :: weave f cs ss

/-- Children with a separator behind each. -/
def weaveLeft (f : Nat → List (Token K V)) (cs : List Nat) (ss : List K) : List (Token K V) :=
  (cs.zip ss).flatMap fun x ↦ f x.1 ++ [sep x.2]

/-- Children with a separator before each. -/
def weaveRight (f : Nat → List (Token K V)) (ss : List K) (cs : List Nat) : List (Token K V) :=
  (ss.zip cs).flatMap fun x ↦ sep x.1 :: f x.2

theorem weave_cons (f : Nat → List (Token K V)) {c : Nat} {cs : List Nat} {ss : List K}
    (h : ss.length = cs.length) : weave f (c :: cs) ss = f c ++ weaveRight f ss cs := by
  induction cs generalizing c ss with
  | nil =>
    obtain rfl := List.eq_nil_of_length_eq_zero h
    rfl
  | cons d cs ih =>
    cases ss with
    | nil => cases h
    | cons s ss =>
      rw [weave, ih (Nat.succ.inj h), weaveRight, weaveRight, List.zip_cons_cons, List.flatMap_cons,
        List.cons_append]

/-- A weave around one child. -/
theorem weave_append (f : Nat → List (Token K V)) {L R : List Nat} {c : Nat} {SL SR : List K}
    (hL : SL.length = L.length) (hR : SR.length = R.length) :
    weave f (L ++ c :: R) (SL ++ SR) = weaveLeft f L SL ++ (f c ++ weaveRight f SR R) := by
  induction L generalizing SL with
  | nil =>
    obtain rfl := List.eq_nil_of_length_eq_zero hL
    rw [List.nil_append, List.nil_append, weave_cons f hR]
    rfl
  | cons d L ih =>
    cases SL with
    | nil => cases hL
    | cons s SL =>
      rw [List.cons_append, List.cons_append, weave, ih (Nat.succ.inj hL), weaveLeft, weaveLeft,
        List.zip_cons_cons, List.flatMap_cons, List.append_assoc, List.append_assoc,
        List.singleton_append]

/-- A weave cut at a separator. -/
theorem weave_split (f : Nat → List (Token K V)) {L : List Nat} (R : List Nat) {SL : List K}
    (SR : List K) {m : K} (hL : L.length = SL.length + 1) :
    weave f (L ++ R) (SL ++ m :: SR) = weave f L SL ++ sep m :: weave f R SR := by
  induction SL generalizing L with
  | nil =>
    obtain ⟨d, rfl⟩ := List.length_eq_one_iff.1 hL
    rw [List.singleton_append, List.nil_append, weave, weave, weave, List.append_nil]
  | cons s SL ih =>
    cases L with
    | nil => cases hL
    | cons d L =>
      rw [List.cons_append, List.cons_append, weave, weave, ih (Nat.succ.inj hL), List.append_assoc,
        List.cons_append]

/-- A weave depends only on what it weaves. -/
theorem weave_congr {f g : Nat → List (Token K V)} {cs : List Nat} (ss : List K)
    (h : ∀ c ∈ cs, f c = g c) : weave f cs ss = weave g cs ss := by
  induction cs generalizing ss with
  | nil => rfl
  | cons c cs ih =>
    have hc := h c List.mem_cons_self
    have hcs := fun ss ↦ ih ss fun d hd ↦ h d (List.mem_cons_of_mem c hd)
    cases ss with
    | nil => rw [weave, weave, hc, hcs]
    | cons s ss => rw [weave, weave, hc, hcs]

theorem ids_weave (f : Nat → List (Token K V)) (cs : List Nat) (ss : List K) :
    ids (weave f cs ss) = cs.flatMap fun c ↦ ids (f c) := by
  induction cs generalizing ss with
  | nil => rfl
  | cons c cs ih =>
    cases ss with
    | nil => rw [weave, ids_append, ih, List.flatMap_cons]
    | cons s ss => rw [weave, ids_append, ids_sep, ih, List.flatMap_cons]

theorem leafIds_weave (f : Nat → List (Token K V)) (cs : List Nat) (ss : List K) :
    leafIds (weave f cs ss) = cs.flatMap fun c ↦ leafIds (f c) := by
  induction cs generalizing ss with
  | nil => rfl
  | cons c cs ih =>
    cases ss with
    | nil => rw [weave, leafIds_append, ih, List.flatMap_cons]
    | cons s ss => rw [weave, leafIds_append, leafIds_sep, ih, List.flatMap_cons]

theorem bindings_weave (f : Nat → List (Token K V)) (cs : List Nat) (ss : List K) :
    bindings (weave f cs ss) = cs.flatMap fun c ↦ bindings (f c) := by
  induction cs generalizing ss with
  | nil => rfl
  | cons c cs ih =>
    cases ss with
    | nil => rw [weave, bindings_append, ih, List.flatMap_cons]
    | cons s ss => rw [weave, bindings_append, bindings_sep, ih, List.flatMap_cons]

/-! ### The order of tokens -/

section Order

variable [LE K] (up : K → K → Prop)

/-- The order in which keys may stand: `up` towards the left of a separator or a binding, and `≤`
to the right of a separator. Pages may stand anywhere. -/
def Before : Token K V → Token K V → Prop
  | entry x _, entry y _ => up x y
  | entry x _, sep s => up x s
  | sep s, entry y _ => s ≤ y
  | sep s, sep s' => s ≤ s'
  | _, _ => True

/-- In order: every token stands before every later one. -/
abbrev Ordered (T : List (Token K V)) : Prop := T.Pairwise (Before up)

variable {up} in
/-- The keys of the bindings are in order. -/
theorem pairwise_bindings {T : List (Token K V)} (h : Ordered up T) :
    ((bindings T).map Prod.fst).Pairwise up := by
  rw [List.pairwise_map, bindings, List.pairwise_filterMap]
  refine h.imp fun {a b} hab x hx y hy ↦ ?_
  cases a <;> cases hx
  cases b <;> cases hy
  exact hab

end Order

/-- A relation that may serve as the strict comparison of `Before`: between `<` and `≤`, and
compatible with `≤` on both sides. -/
structure Upper [LinearOrder K] (up : K → K → Prop) : Prop where
  of_lt : ∀ {a b : K}, a < b → up a b
  le : ∀ {a b : K}, up a b → a ≤ b
  trans_le : ∀ {a b c : K}, up a b → b ≤ c → up a c
  le_trans : ∀ {a b c : K}, a ≤ b → up b c → up a c

theorem upper_le [LinearOrder K] : Upper (K := K) (· ≤ ·) := ⟨le_of_lt, id, le_trans, le_trans⟩

theorem upper_lt [LinearOrder K] : Upper (K := K) (· < ·) := ⟨id, le_of_lt, lt_of_lt_of_le,
  lt_of_le_of_lt⟩

section Upper

variable [LinearOrder K] {up : K → K → Prop} (hup : Upper up) {k s : K} {v : V}

include hup

/-- What stands before a separator stands before every binding from it on. -/
theorem Before.entry_of_sep {a : Token K V} (ha : Before up a (sep s)) (hs : s ≤ k) :
    Before up a (entry k v) := by
  cases a with
  | inner p => trivial
  | leaf p => trivial
  | sep s' => exact le_trans (show s' ≤ s from ha) hs
  | entry x w => exact hup.trans_le (show up x s from ha) hs

/-- What stands behind a separator stands behind every binding below it. -/
theorem Before.of_up_sep {c : Token K V} (hs : up k s) (hc : Before up (sep s) c) :
    Before up (entry k v) c := by
  cases c with
  | inner p => trivial
  | leaf p => trivial
  | sep s' => exact hup.trans_le hs (show s ≤ s' from hc)
  | entry y w => exact hup.trans_le hs (show s ≤ y from hc)

omit hup in
/-- What stands before a binding stands before a separator of the same key. -/
theorem Before.sep_of_entry {a : Token K V} (h : Before up a (entry k v)) :
    Before up a (sep k) := by
  cases a <;> exact h

/-- What stands behind a binding stands behind a separator of the same key. -/
theorem Before.of_entry {c : Token K V} (h : Before up (entry k v) c) : Before up (sep k) c := by
  cases c with
  | inner p => trivial
  | leaf p => trivial
  | sep s' => exact hup.le h
  | entry y w => exact hup.le h

end Upper

end Token

open Token

variable {K V : Type}

/-- The tokens of the subtree of height `h` whose root is page `p`. -/
def tokens (P : Nat → Node K V) : Nat → Nat → List (Token K V)
  | 0, p => .leaf p :: ofEntries (P p).entries
  | h + 1, p => .inner p :: weave (tokens P h) (P p).children (P p).keys

/-- The shape of a subtree of height `h`: leaves at the bottom, and internal nodes whose separators
are in order above. -/
def TreeShape [LinearOrder K] (up : K → K → Prop) (P : Nat → Node K V) : Nat → Nat → Prop
  | 0, p => (P p).LeafShape
  | h + 1, p => (P p).InternalShape ∧ (P p).keys.Pairwise up ∧
      ∀ c ∈ (P p).children, TreeShape up P h c

/-- The leaves are linked in the given order, the last one to `exit`. -/
def Linked (P : Nat → Node K V) : List Nat → Option Nat → Prop
  | [], _ => True
  | p :: l, exit => (P p).nextLeaf = l.head?.or exit ∧ Linked P l exit

/-! ### Frames -/

section Frame

variable {P P' : Nat → Node K V} {h p : Nat}

theorem mem_ids_tokens (P : Nat → Node K V) (h p : Nat) : p ∈ ids (tokens P h p) := by
  cases h <;> exact List.mem_cons_self

/-- The pages below a child are pages of the subtree. -/
theorem ids_tokens_succ (P : Nat → Node K V) (h p : Nat) :
    ids (tokens P (h + 1) p) = p :: (P p).children.flatMap fun c ↦ ids (tokens P h c) := by
  rw [tokens, ids_inner, ids_weave]

/-- A subtree depends on the pages it occupies only. -/
theorem tokens_congr (hP : ∀ q ∈ ids (tokens P h p), P' q = P q) :
    tokens P' h p = tokens P h p := by
  induction h generalizing p with
  | zero => rw [tokens, tokens, hP p (mem_ids_tokens P 0 p)]
  | succ h ih =>
    rw [ids_tokens_succ] at hP
    rw [tokens, tokens, hP p List.mem_cons_self]
    congr 1
    exact weave_congr _ fun c hc ↦ ih fun q hq ↦
      hP q (List.mem_cons_of_mem p (List.mem_flatMap.2 ⟨c, hc, hq⟩))

theorem treeShape_congr [LinearOrder K] {up : K → K → Prop}
    (hP : ∀ q ∈ ids (tokens P h p), P' q = P q) (hs : TreeShape up P h p) :
    TreeShape up P' h p := by
  induction h generalizing p with
  | zero => rw [TreeShape, hP p (mem_ids_tokens P 0 p)]; exact hs
  | succ h ih =>
    rw [ids_tokens_succ] at hP
    rw [TreeShape, hP p List.mem_cons_self]
    exact ⟨hs.1, hs.2.1, fun c hc ↦ ih (fun q hq ↦
      hP q (List.mem_cons_of_mem p (List.mem_flatMap.2 ⟨c, hc, hq⟩))) (hs.2.2 c hc)⟩

/-- The pages below a page of a tree are pages of the subtree. -/
theorem TreeShape.mem_ids_of_below [LinearOrder K] {up : K → K → Prop} {q : Nat}
    (hs : TreeShape up P h p) (hq : Below P p q) : q ∈ ids (tokens P h p) := by
  induction hq using Relation.ReflTransGen.head_induction_on generalizing h with
  | refl => exact mem_ids_tokens P h q
  | @head p c hc _ ih =>
    cases h with
    | zero =>
      rw [Node.LeafShape.children_eq hs] at hc
      cases hc
    | succ h =>
      rw [ids_tokens_succ]
      exact List.mem_cons_of_mem p (List.mem_flatMap.2 ⟨c, hc, ih (hs.2.2 c hc)⟩)

theorem linked_congr {l : List Nat} {exit : Option Nat} (hP : ∀ q ∈ l, P' q = P q)
    (hl : Linked P l exit) : Linked P' l exit := by
  induction l with
  | nil => trivial
  | cons p l ih =>
    rw [Linked, hP p List.mem_cons_self]
    exact ⟨hl.1, ih (fun q hq ↦ hP q (List.mem_cons_of_mem p hq)) hl.2⟩

theorem linked_append {l l' : List Nat} {exit : Option Nat} :
    Linked P (l ++ l') exit ↔ Linked P l (l'.head?.or exit) ∧ Linked P l' exit := by
  induction l with
  | nil => exact ⟨fun h ↦ ⟨trivial, h⟩, fun h ↦ h.2⟩
  | cons p l ih =>
    rw [List.cons_append, Linked, Linked, ih, and_assoc]
    have : (l ++ l').head?.or exit = l.head?.or (l'.head?.or exit) := by
      cases l <;> rfl
    rw [this]

end Frame

end KsSql
