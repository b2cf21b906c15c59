/-
  The comparison of subtrees decides whether they have one shape. `Op.key` keeps of an
  operation what the comparison looks at, so that two operations are alike exactly if their
  keys are equal (`Op.alike_iff`); `Tree.shape` keeps of a tree the keys and their places. On
  a forest, two live nodes compare equal exactly if the trees below them have equal shapes
  (`Forest.sameTree_iff`), whether the trees lie apart or one in the other.

  The comparison as it runs takes pairs of nodes from a stack and does not look below a pair
  whose two handles are one (`compare`). It ends within as many rounds as the arena has slots,
  with the answer of `sameTree` (`Forest.compare_eq`).
-/
import CilFold.Proofs.SelfStoreShape
import CilFold.Proofs.Walks

namespace CilFold

/-! ## Keys of operations -/

/-- What a comparison looks at in an operation: the tokens of declarations, and of a call site
    all but the state of the stack. -/
inductive OpKey where
  | nop
  | ldc (value : Int32)
  | ldnull
  | ldloc (id : VarId)
  | ldloca (id : VarId)
  | stloc (id : VarId)
  | ldflda (field : Token)
  | ldobj (type : Token)
  | stobj (type : Token)
  | unbox (type : Token)
  | call (kind : CallKind) (method : Token) (tail : Bool) (constrained : Option Token)
  | ret
  | block (kind : BlockKind)
  | container
deriving DecidableEq

namespace Op

/-- The key of an operation. -/
def key : Op → OpKey
  | nop => .nop
  | ldc value => .ldc value
  | ldnull => .ldnull
  | ldloc id => .ldloc id
  | ldloca id => .ldloca id
  | stloc id => .stloc id
  | ldflda field => .ldflda field.token
  | ldobj type => .ldobj type.token
  | stobj type => .stobj type.token
  | unbox type => .unbox type.token
  | call site =>
    .call site.kind site.method.token site.tail (site.constrained.map TypeDecl.token)
  | ret => .ret
  | block kind => .block kind
  | container => .container

end Op

theorem CallSite.sameConstraint_iff {a b : Option TypeDecl} :
    sameConstraint a b = true ↔ a.map TypeDecl.token = b.map TypeDecl.token := by
  cases a <;> cases b <;> simp [sameConstraint, TypeDecl.same]

/-- Operations are alike exactly if they have one key. -/
theorem Op.alike_iff {a b : Op} : a.alike b = true ↔ a.key = b.key := by
  cases a <;> cases b <;>
    simp [alike, key, FieldDecl.same, TypeDecl.same, MethodDecl.same, CallSite.alike,
      CallSite.sameConstraint_iff, and_assoc]

/-! ## Shapes of trees -/

/-- The keys of a tree at their places. -/
inductive Shape where
  | node (key : OpKey) (operands : List Shape)

namespace Tree

variable {α : Type}

mutual

/-- The shape of a tree. -/
def shape : Tree α → Shape
  | node _ op ts => .node op.key (shapesOf ts)

/-- The shapes of several trees. -/
def shapesOf : List (Tree α) → List Shape
  | [] => []
  | t :: ts => shape t :: shapesOf ts

end

theorem shapesOf_eq (ts : List (Tree α)) : shapesOf ts = ts.map shape := by
  induction ts with
  | nil => rfl
  | cons t ts ih => rw [shapesOf, ih, List.map_cons]

theorem shape_node (a : α) (op : Op) (ts : List (Tree α)) :
    (node a op ts).shape = .node op.key (ts.map shape) := by
  rw [shape, shapesOf_eq]

/-- Trees have one shape exactly if their operations are alike, and their operands have one
    shape each. -/
theorem shape_eq_iff {t u : Tree α} :
    t.shape = u.shape ↔
      t.op.alike u.op = true ∧ t.operands.map shape = u.operands.map shape := by
  cases t with
  | node a op ts =>
    cases u with
    | node b op' us => rw [shape_node, shape_node, Shape.node.injEq, Op.alike_iff]; rfl

/-- What a tree looks like without its labels decides its shape. -/
theorem shape_eq_of_bare {β : Type} {t : Tree α} {u : Tree β} (h : t.bare = u.bare) :
    t.shape = u.shape := by
  have hbare : ∀ {γ : Type} (t : Tree γ), t.bare.shape = t.shape := by
    intro γ t
    induction t with
    | node a op ts ih =>
      rw [bare_node, shape_node, shape_node, List.map_map]
      exact congrArg (Shape.node op.key) (List.map_congr_left ih)
  rw [← hbare t, h, hbare u]

end Tree

/-- Lists of one length whose elements match in pairs are those with equal images, if matching
    means to have equal images. -/
theorem all_zip_iff {α β γ : Type} {f : α → γ} {g : β → γ} {p : α × β → Bool} {l : List α}
    {m : List β} (h : ∀ x ∈ l, ∀ y ∈ m, p (x, y) = true ↔ f x = g y) :
    (l.length == m.length && (l.zip m).all p) = true ↔ l.map f = m.map g := by
  induction l generalizing m with
  | nil => cases m <;> simp
  | cons x l ih =>
    cases m with
    | nil => simp
    | cons y m =>
      have hrest := ih fun x hx y hy =>
        h x (List.mem_cons_of_mem _ hx) y (List.mem_cons_of_mem _ hy)
      have hhead := h x List.mem_cons_self y List.mem_cons_self
      simp only [Bool.and_eq_true, beq_iff_eq] at hrest
      simp only [List.length_cons, List.zip_cons_cons, List.all_cons, List.map_cons,
        Bool.and_eq_true, beq_iff_eq, Nat.add_right_cancel_iff, List.cons.injEq, hhead, ← hrest]
      exact and_left_comm

namespace Routine

variable {r : Routine} {a b : NodeId} {x y : Node} {t u : Tree NodeId}

/-- On trees of one arena it does not matter that the comparison stops at equal handles. -/
theorem Holds.sameTo_iff (ht : r.Holds t) (hu : r.Holds u) {depth : Nat}
    (hdepth : t.Within depth) : t.sameTo depth u = true ↔ t.shape = u.shape := by
  induction t generalizing depth u with
  | node k op ts ih =>
    cases depth with
    | zero => exact hdepth.elim
    | succ depth =>
      rw [Tree.sameTo]
      by_cases hlabel : (Tree.node k op ts).label = u.label
      · rw [hlabel, beq_self_eq_true, Bool.true_or, ht.unique hu hlabel]
        exact iff_of_true rfl rfl
      · rw [beq_eq_false_iff_ne.mpr hlabel, Bool.false_or, Bool.and_assoc, Bool.and_eq_true,
          Tree.shape_eq_iff]
        refine and_congr_right fun _ => all_zip_iff fun t' ht' u' hu' => ?_
        exact ih t' ht' (ht.operand ht') (hu.operand hu') (hdepth t' ht')

/-- The comparison as it runs: it takes the uppermost pair off the stack and puts the pairs of
    children in its place, the last pair uppermost. There is no answer when the rounds run
    out. -/
def compare (r : Routine) : Nat → List (NodeId × NodeId) → Option Bool
  | _, [] => some true
  | 0, _ :: _ => none
  | rounds + 1, (a, b) :: pending =>
    if a = b then
      if r.isAlive a then r.compare rounds pending else some false
    else match r.node? a, r.node? b with
      | some x, some y =>
        if x.op.alike y.op && x.children.length == y.children.length then
          r.compare rounds ((x.children.zip y.children).reverse ++ pending)
        else some false
      | _, _ => some false

/-- Two live nodes with different handles are compared by their operations and the numbers of
    their children, and the children are left to compare. -/
theorem compare_of_node? (hab : a ≠ b) (hx : r.node? a = some x) (hy : r.node? b = some y)
    (rounds : Nat) (pending : List (NodeId × NodeId)) :
    r.compare (rounds + 1) ((a, b) :: pending) =
      if x.op.alike y.op && x.children.length == y.children.length then
        r.compare rounds ((x.children.zip y.children).reverse ++ pending)
      else some false := by
  rw [compare, if_neg hab]
  simp only [hx, hy]

theorem alive_or_dead (r : Routine) (a b : NodeId) :
    (r.isAlive a = true ∧ r.isAlive b = true) ∨ r.node? a = none ∨ r.node? b = none := by
  unfold isAlive
  cases r.node? a <;> cases r.node? b <;> simp

/-- A handle without a node compares equal to none. -/
theorem compare_of_dead (h : r.node? a = none ∨ r.node? b = none) (rounds : Nat)
    (pending : List (NodeId × NodeId)) :
    r.compare (rounds + 1) ((a, b) :: pending) = some false := by
  rw [compare]
  by_cases hab : a = b
  · have ha : r.node? a = none := h.elim id fun hb => hab ▸ hb
    simp [hab ▸ ha, hab, isAlive]
  · rw [if_neg hab]
    rcases h with ha | hb
    · simp only [ha]
    · cases r.node? a <;> simp only [hb]

theorem sameTree_of_dead (h : r.node? a = none ∨ r.node? b = none) : r.sameTree a b = false := by
  unfold sameTree
  cases r.nodes.size with
  | zero => rfl
  | succ depth =>
    rw [sameTreeTo]
    by_cases hab : a = b
    · have ha : r.node? a = none := h.elim id fun hb => hab ▸ hb
      rw [if_pos hab, isAlive, ha, Option.isSome_none]
    · rw [if_neg hab]
      rcases h with ha | hb
      · simp only [ha]
      · cases r.node? a <;> simp only [hb]

namespace Forest

variable (F : r.Forest)
include F

/-- Live nodes compare equal exactly if the trees below them have one shape. -/
theorem sameTree_iff (ha : r.isAlive a = true) (hb : r.isAlive b = true) :
    r.sameTree a b = true ↔ (r.tree a).shape = (r.tree b).shape := by
  have hta := F.holds_tree ha
  have htb := F.holds_tree hb
  have heq := sameTreeTo_eq r.nodes.size hta htb
  rw [label_tree, label_tree] at heq
  rw [sameTree, heq, hta.sameTo_iff htb (F.within hta)]

/-- Handles compare equal exactly if both have a node, and the trees below have one shape. -/
theorem sameTree_eq_true : r.sameTree a b = true ↔
    r.isAlive a = true ∧ r.isAlive b = true ∧ (r.tree a).shape = (r.tree b).shape := by
  rcases r.alive_or_dead a b with ⟨ha, hb⟩ | hdead
  · simp only [F.sameTree_iff ha hb, ha, hb, true_and]
  · rw [sameTree_of_dead hdead, isAlive, isAlive]
    rcases hdead with hd | hd <;> simp [hd]

/-- The comparison of two nodes goes on with their children, whether or not the two are one. -/
theorem sameTree_node (hx : r.node? a = some x) (hy : r.node? b = some y) :
    r.sameTree a b = (x.op.alike y.op && x.children.length == y.children.length &&
      (x.children.zip y.children).all fun pair => r.sameTree pair.1 pair.2) := by
  have ha := isAlive_of_node? hx
  have hb := isAlive_of_node? hy
  have hca := children_of_node? hx
  have hcb := children_of_node? hy
  have hpairs : ∀ c ∈ x.children, ∀ d ∈ y.children,
      r.sameTree c d = true ↔ (r.tree c).shape = (r.tree d).shape := by
    intro c hc d hd
    rw [← hca] at hc
    rw [← hcb] at hd
    exact F.sameTree_iff (F.alive_of_mem_children hc) (F.alive_of_mem_children hd)
  have hchildren := all_zip_iff (p := fun pair => r.sameTree pair.1 pair.2) hpairs
  rw [Bool.eq_iff_iff, F.sameTree_iff ha hb, Bool.and_assoc, Bool.and_eq_true, hchildren,
    Tree.shape_eq_iff, F.tree_eq ha, F.tree_eq hb, op?_of_node? hx, op?_of_node? hy, hca, hcb,
    Tree.operands_node, Tree.operands_node, List.map_map, List.map_map]
  rfl

theorem alive_of_mem_zip (hx : r.node? a = some x) (hy : r.node? b = some y)
    {pair : NodeId × NodeId} (hpair : pair ∈ x.children.zip y.children) :
    r.isAlive pair.1 = true ∧ r.isAlive pair.2 = true := by
  obtain ⟨hc, hd⟩ := List.of_mem_zip hpair
  rw [← children_of_node? hx] at hc
  rw [← children_of_node? hy] at hd
  exact ⟨F.alive_of_mem_children hc, F.alive_of_mem_children hd⟩

/-- The pairs of children have one node less on their left sides than the pair above them. -/
theorem length_preorder_zip (hx : r.node? a = some x) {l : List NodeId}
    (hlength : x.children.length ≤ l.length) : (r.preorder a).length =
      ((x.children.zip l).map fun pair => (r.preorder pair.1).length).sum + 1 := by
  have hleft : (x.children.zip l).map (fun pair => (r.preorder pair.1).length) =
      ((x.children.zip l).map Prod.fst).map fun c => (r.preorder c).length := by
    rw [List.map_map]
    rfl
  rw [F.preorder_eq (isAlive_of_node? hx), List.length_cons, List.length_flatMap, hleft,
    List.map_fst_zip hlength, children_of_node? hx]

/-- The comparison ends with the pairs on its stack compared. -/
theorem compare_eq {rounds : Nat} {pending : List (NodeId × NodeId)}
    (halive : ∀ pair ∈ pending, r.isAlive pair.1 = true ∧ r.isAlive pair.2 = true)
    (hrounds : (pending.map fun pair => (r.preorder pair.1).length).sum ≤ rounds) :
    r.compare rounds pending = some (pending.all fun pair => r.sameTree pair.1 pair.2) := by
  induction rounds generalizing pending with
  | zero =>
    cases pending with
    | nil => rfl
    | cons pair pending =>
      have hpos := F.length_preorder_pos (halive pair List.mem_cons_self).1
      rw [List.map_cons, List.sum_cons] at hrounds
      omega
  | succ rounds ih =>
    cases pending with
    | nil => rfl
    | cons pair pending =>
      obtain ⟨a, b⟩ := pair
      obtain ⟨ha, hb⟩ : r.isAlive a = true ∧ r.isAlive b = true :=
        halive (a, b) List.mem_cons_self
      have hrest : ∀ pair ∈ pending, r.isAlive pair.1 = true ∧ r.isAlive pair.2 = true :=
        fun pair hpair => halive pair (List.mem_cons_of_mem _ hpair)
      have hpos := F.length_preorder_pos ha
      simp only [List.map_cons, List.sum_cons] at hrounds
      by_cases hab : a = b
      · have hself : r.sameTree a b = true := by rw [F.sameTree_iff ha hb, hab]
        rw [compare, if_pos hab, if_pos ha, ih hrest (by omega), List.all_cons, hself,
          Bool.true_and]
      · obtain ⟨x, hx⟩ := isAlive_iff.mp ha
        obtain ⟨y, hy⟩ := isAlive_iff.mp hb
        rw [compare_of_node? hab hx hy, List.all_cons, F.sameTree_node hx hy]
        cases hsame : x.op.alike y.op && x.children.length == y.children.length with
        | false => rfl
        | true =>
          have hlength : x.children.length ≤ y.children.length :=
            Nat.le_of_eq (beq_iff_eq.mp (Bool.and_eq_true_iff.mp hsame).2)
          have hnext : ∀ pair ∈ (x.children.zip y.children).reverse ++ pending,
              r.isAlive pair.1 = true ∧ r.isAlive pair.2 = true := by
            intro pair hpair
            rcases List.mem_append.mp hpair with hpair | hpair
            · exact F.alive_of_mem_zip hx hy (List.mem_reverse.mp hpair)
            · exact hrest pair hpair
          have hsum : (((x.children.zip y.children).reverse ++ pending).map
              fun pair => (r.preorder pair.1).length).sum ≤ rounds := by
            have hleft := F.length_preorder_zip hx hlength
            rw [List.map_append, List.sum_append, List.map_reverse, List.sum_reverse]
            omega
          rw [if_pos rfl, ih hnext hsum, List.all_append, List.all_reverse, Bool.true_and]

end Forest

/-- What the comparison of subtrees decides in a routine. -/
structure Compares (r : Routine) : Prop where
  /-- The comparison ends, with the answer of the recursive one. -/
  ends : ∀ a b rounds, r.nodes.size ≤ rounds → r.compare rounds [(a, b)] = some (r.sameTree a b)
  decides : ∀ a b, r.sameTree a b = true ↔
    r.isAlive a = true ∧ r.isAlive b = true ∧ (r.tree a).shape = (r.tree b).shape
  reflexive : ∀ a, r.isAlive a = true → r.sameTree a a = true
  symmetric : ∀ a b, r.sameTree a b = true → r.sameTree b a = true
  transitive : ∀ a b c, r.sameTree a b = true → r.sameTree b c = true → r.sameTree a c = true

end Routine

namespace Reachable

open Routine

variable {r : Routine}

/-- In every reachable routine the comparison of subtrees decides whether two handles have
    nodes, with trees of one shape. -/
theorem sameTree_decides (h : Reachable r) :
    r.Compares ∧ ∀ o o' : Op, o.alike o' = true ↔ o.key = o'.key := by
  have F := h.forest
  have hdecides := fun a b => F.sameTree_eq_true (a := a) (b := b)
  refine ⟨⟨fun a b rounds hrounds => ?_, hdecides, fun a ha => ?_, fun a b hab => ?_,
    fun a b c hab hbc => ?_⟩, fun o o' => Op.alike_iff⟩
  · rcases r.alive_or_dead a b with ⟨ha, hb⟩ | hdead
    · have hle := F.length_preorder_le ha
      rw [F.compare_eq (List.forall_mem_singleton.mpr ⟨ha, hb⟩) (by simpa using by omega)]
      simp
    · have hpos := F.size_pos
      obtain ⟨rounds, rfl⟩ : ∃ k, rounds = k + 1 := ⟨rounds - 1, by omega⟩
      rw [compare_of_dead hdead, sameTree_of_dead hdead]
  · exact (hdecides a a).mpr ⟨ha, ha, rfl⟩
  · obtain ⟨ha, hb, hshape⟩ := (hdecides a b).mp hab
    exact (hdecides b a).mpr ⟨hb, ha, hshape.symm⟩
  · obtain ⟨ha, _, hshape⟩ := (hdecides a b).mp hab
    obtain ⟨_, hc, hshape'⟩ := (hdecides b c).mp hbc
    exact (hdecides a c).mpr ⟨ha, hc, hshape.trans hshape'⟩

/-- Two types with one token are one type under any name, and a tree does not compare equal to
    one that it is part of. -/
theorem sameTree_of_one_token : ∃ r, Reachable r ∧
    r.op? ⟨2⟩ ≠ r.op? ⟨4⟩ ∧ r.compare 6 [(⟨2⟩, ⟨4⟩)] = some true ∧
    r.children ⟨5⟩ = [⟨4⟩] ∧ r.compare 6 [(⟨4⟩, ⟨5⟩)] = some false ∧ r.Compares := by
  have h0 := Reachable.empty ⟨0x06000001⟩ "Draw"
  have h1 := Reachable.called (.leaf .ldnull rfl) h0 rfl
  have h2 := Reachable.called (.create (.ldobj .void) [⟨1⟩]) h1 rfl
  have h3 := Reachable.called (.leaf .ldnull rfl) h2 rfl
  have h4 := Reachable.called (.create (.ldobj { TypeDecl.void with name := "Nothing" }) [⟨3⟩])
    h3 rfl
  have h5 := Reachable.called (.create (.ldobj .void) [⟨4⟩]) h4 rfl
  exact ⟨_, h5, by decide +kernel, by decide +kernel, by decide +kernel, by decide +kernel,
    (sameTree_decides h5).1⟩

end Reachable

end CilFold
