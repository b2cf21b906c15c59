/-
  Folding a capture object as a rewriting of the operation tree, and the plan of the fold as a
  reading of that tree.

  `Capture.folded` says what becomes of a tree: the wrappers collapse, the references to
  recorded fields outside their stores are replaced, the construction becomes a store of the
  receiver, and the recorded stores go. A field is recorded if it has exactly one forwarding
  store in the tree before all that.
-/
import CilFold.Pass.CapturedReceiver
import CilFold.Proofs.Inlining
import CilFold.Proofs.Marks

namespace CilFold

/-! ## The rewriting -/

namespace Tree

variable {α : Type}

mutual

/-- The instructions of the blocks of a tree. -/
def instructions : Tree α → List (Tree α)
  | node _ op ts => instructionsOf op.isBlock ts

/-- The instructions in several operands, which may be instructions themselves. -/
def instructionsOf (direct : Bool) : List (Tree α) → List (Tree α)
  | [] => []
  | t :: ts => (if direct then [t] else []) ++ instructions t ++ instructionsOf direct ts

end

/-- The field and the variable of `ldflda F(ldloc v)`. -/
def fieldOfLocal? : Tree α → Option (FieldDecl × VarId)
  | node _ (.ldflda field) [node _ (.ldloc v) []] => some (field, v)
  | _ => none

end Tree

/-- A forwarding store in a tree. -/
structure Forwarding where
  store : NodeId
  field : FieldDecl
  value : Tree NodeId

namespace Capture

variable {α : Type}

/-- Whether a tree is a wrapper: `ldobj T(ldflda F(ldloc v))`, where T is the receiver's type
    and v holds the capture object. -/
def isWrapper (c : Capture) : Tree α → Bool
  | .node _ (.ldobj type) [address] =>
    type.same c.receiverType && address.fieldOfLocal?.any (·.2 == c.holder)
  | _ => false

/-- A wrapper becomes a load of the variable. -/
def collapse (c : Capture) (t : Tree (Option NodeId)) : Option (Tree (Option NodeId)) :=
  if c.isWrapper t then some (.node none (.ldloc c.holder) []) else none

/-- Whether a value can stand for the field it is stored in: the load of another variable, or
    an `unbox`. -/
def canStand (c : Capture) : Tree α → Bool
  | .node _ (.ldloc v) _ => v != c.holder
  | .node _ (.unbox _) _ => true
  | _ => false

/-- The forwarding store that an instruction is: `stobj T(ldflda F(ldloc v), value)` with a
    field of the capture type and a value that can stand for it. -/
def forwarding? (c : Capture) : Tree NodeId → Option Forwarding
  | .node store (.stobj _) [address, value] => do
    let (field, v) ← address.fieldOfLocal?
    if v == c.holder && field.owner.same c.captureType && c.canStand value then
      some { store, field, value }
    else none
  | _ => none

/-- The forwarding stores in a tree. -/
def forwardings (c : Capture) (t : Tree NodeId) : List Forwarding :=
  t.instructions.filterMap c.forwarding?

/-- The forwarding stores whose field has no other one. -/
def recorded (c : Capture) (t : Tree NodeId) : List Forwarding :=
  (c.forwardings t).filter fun f => (c.forwardings t).countP (·.field.same f.field) == 1

/-- What stands for a field when the wrappers have collapsed: the address of the variable that
    was stored, or a copy of the `unbox`. -/
def standFor (c : Capture) (f : Forwarding) : Tree (Option NodeId) :=
  match f.value with
  | .node _ (.ldloc v) _ => .node none (.ldloca v) []
  | value => ((value.map some).rewrite c.collapse).anew

/-- A reference `ldflda F(ldloc v)` to a recorded field becomes what stands for the field. The
    recorded stores are left alone. -/
def refer (c : Capture) (recorded : List Forwarding) (t : Tree (Option NodeId)) :
    Option (Tree (Option NodeId)) :=
  if recorded.any (some ·.store == t.label) then some t
  else do
    let (field, v) ← t.fieldOfLocal?
    if v == c.holder then (recorded.find? (·.field.same field)).map c.standFor else none

/-- The tree with the uses of the capture object that `inst` constructs from `this` replaced,
    and the construction with them. -/
def rewritten (c : Capture) (inst : NodeId) (this : VarId) (t : Tree NodeId) :
    Tree (Option NodeId) :=
  let collapsed := (t.map some).rewrite c.collapse
  let referred := collapsed.rewrite (c.refer (c.recorded t))
  referred.plantAt (some inst) (.node none (.stloc c.holder) [.node none (.ldloc this) []])

/-- The tree after the fold: the recorded stores are gone, too. -/
def folded (c : Capture) (inst : NodeId) (this : VarId) (t : Tree NodeId) : Tree (Option NodeId) :=
  (c.rewritten inst this t).prune fun a => (c.recorded t).any (some ·.store == a)

/-- The routine in which the variable of the capture object has the receiver's type. -/
def retyped (c : Capture) (r : Routine) : Routine :=
  r.modifyVariable c.holder fun x => { x with type := c.receiverType }

end Capture

/-! ## Shapes -/

namespace Tree

variable {α : Type}

theorem fieldOfLocal?_eq_some {t : Tree α} {field : FieldDecl} {v : VarId} :
    t.fieldOfLocal? = some (field, v) ↔
      ∃ a l, t = .node a (.ldflda field) [.node l (.ldloc v) []] := by
  constructor
  · intro h
    unfold fieldOfLocal? at h
    split at h
    · next a _ l _ =>
      cases h
      exact ⟨a, l, rfl⟩
    · cases h
  · rintro ⟨a, l, rfl⟩
    rfl

theorem fieldOfLocal?_map {β : Type} (f : α → β) (t : Tree α) :
    (t.map f).fieldOfLocal? = t.fieldOfLocal? := by
  refine Option.ext fun ⟨field, v⟩ => ?_
  rw [fieldOfLocal?_eq_some, fieldOfLocal?_eq_some]
  constructor
  · rintro ⟨b, m, ht⟩
    obtain ⟨a, op, ts⟩ := t
    rw [map_node] at ht
    injection ht with _ hop hts
    obtain ⟨⟨l, op', us⟩, rfl, hl⟩ := List.map_eq_singleton_iff.mp hts
    rw [map_node] at hl
    injection hl with _ hop' hus
    rw [List.map_eq_nil_iff.mp hus, hop, hop']
    exact ⟨a, l, rfl⟩
  · rintro ⟨a, l, rfl⟩
    exact ⟨f a, f l, by rw [map_node, List.map_singleton, map_node, List.map_nil]⟩

theorem instructionsOf_eq (direct : Bool) (ts : List (Tree α)) :
    instructionsOf direct ts =
      ts.flatMap fun t => (if direct then [t] else []) ++ t.instructions := by
  induction ts with
  | nil => rfl
  | cons t ts ih => rw [instructionsOf, ih, List.flatMap_cons]

theorem instructions_node (a : α) (op : Op) (ts : List (Tree α)) :
    (node a op ts).instructions =
      ts.flatMap fun t => (if op.isBlock then [t] else []) ++ t.instructions := by
  rw [instructions, instructionsOf_eq]

theorem mem_instructions {t u : Tree α} :
    u ∈ t.instructions ↔ ∃ b ∈ t.subtrees, b.op.isBlock = true ∧ u ∈ b.operands := by
  induction t with
  | node a op ts ih =>
    rw [instructions_node, List.mem_flatMap]
    constructor
    · rintro ⟨t, ht, hu⟩
      rcases List.mem_append.mp hu with hu | hu
      · split_ifs at hu with hop
        · rw [List.mem_singleton.mp hu]
          exact ⟨_, mem_subtrees_self _, hop, ht⟩
        · cases hu
      · obtain ⟨b, hb, hop, hu⟩ := (ih t ht).mp hu
        exact ⟨b, mem_subtrees_node.mpr (.inr ⟨t, ht, hb⟩), hop, hu⟩
    · rintro ⟨b, hb, hop, hu⟩
      rcases mem_subtrees_node.mp hb with rfl | ⟨t, ht, hb⟩
      · refine ⟨u, hu, List.mem_append_left _ ?_⟩
        rw [op_node] at hop
        rw [if_pos hop]
        exact List.mem_singleton_self u
      · exact ⟨t, ht, List.mem_append_right _ ((ih t ht).mpr ⟨b, hb, hop, hu⟩)⟩

/-- The instructions come in the order of the subtrees. -/
theorem sublist_instructions (t : Tree α) :
    t.instructions.Sublist (t.operands.flatMap subtrees) := by
  induction t with
  | node a op ts ih =>
    rw [instructions_node, operands_node]
    induction ts with
    | nil => exact List.Sublist.refl _
    | cons t ts ihs =>
      rw [List.flatMap_cons, List.flatMap_cons]
      refine List.Sublist.append ?_ (ihs fun u hu => ih u (List.mem_cons_of_mem _ hu))
      have hlow := ih t List.mem_cons_self
      cases t with
      | node b op' us =>
        rw [subtrees_node]
        split_ifs
        · exact hlow.cons_cons _
        · exact hlow.cons _

theorem nodup_instructions {t : Tree α} (h : t.labels.Nodup) :
    (t.instructions.map label).Nodup := by
  cases t with
  | node a op ts =>
    rw [labels_node, List.nodup_cons] at h
    refine h.2.sublist ?_
    have hsub := (sublist_instructions (node a op ts)).map label
    rw [operands_node, List.map_flatMap] at hsub
    exact hsub

end Tree

namespace Capture

variable {α : Type} {c : Capture}

theorem isWrapper_iff {t : Tree α} : c.isWrapper t = true ↔ ∃ w type x field,
    t = .node w (.ldobj type) [x] ∧ x.fieldOfLocal? = some (field, c.holder) ∧
      type.same c.receiverType = true := by
  constructor
  · intro h
    unfold isWrapper at h
    split at h
    · next w type x =>
      rw [Bool.and_eq_true, Option.any_eq_true] at h
      obtain ⟨htype, ⟨field, v⟩, hx, hv⟩ := h
      rw [beq_iff_eq] at hv
      exact ⟨w, type, x, field, rfl, hv ▸ hx, htype⟩
    · cases h
  · rintro ⟨w, type, x, field, rfl, hx, htype⟩
    rw [isWrapper, hx, htype, Option.any_some, beq_self_eq_true]
    rfl

theorem isWrapper_map {β : Type} (f : α → β) (t : Tree α) :
    c.isWrapper (t.map f) = c.isWrapper t := by
  rw [Bool.eq_iff_iff, isWrapper_iff, isWrapper_iff]
  constructor
  · rintro ⟨w, type, x, field, ht, hx, htype⟩
    obtain ⟨a, op, ts⟩ := t
    rw [Tree.map_node] at ht
    injection ht with _ hop hts
    obtain ⟨y, rfl, rfl⟩ := List.map_eq_singleton_iff.mp hts
    rw [Tree.fieldOfLocal?_map] at hx
    exact ⟨a, type, y, field, hop ▸ rfl, hx, htype⟩
  · rintro ⟨w, type, x, field, rfl, hx, htype⟩
    refine ⟨f w, type, x.map f, field, Tree.map_node _ _ _ _, ?_, htype⟩
    rw [Tree.fieldOfLocal?_map, hx]

theorem forwarding?_eq_some {t : Tree NodeId} {f : Forwarding} : c.forwarding? t = some f ↔
    ∃ type x, t = .node f.store (.stobj type) [x, f.value] ∧
      x.fieldOfLocal? = some (f.field, c.holder) ∧
      f.field.owner.same c.captureType = true ∧ c.canStand f.value = true := by
  constructor
  · intro h
    unfold forwarding? at h
    split at h
    · next store type x value =>
      simp only [Option.bind_eq_bind, Option.bind_eq_some_iff] at h
      obtain ⟨⟨field, v⟩, hx, h⟩ := h
      split_ifs at h with hc
      cases h
      rw [Bool.and_eq_true, Bool.and_eq_true, beq_iff_eq] at hc
      obtain ⟨⟨rfl, howner⟩, hstand⟩ := hc
      exact ⟨type, x, rfl, hx, howner, hstand⟩
    · cases h
  · rintro ⟨type, x, rfl, hx, howner, hstand⟩
    simp only [forwarding?, hx, Option.bind_eq_bind, Option.bind_some, howner, hstand,
      beq_self_eq_true, Bool.and_self, if_true]

end Capture

end CilFold
