/-
  Routines that can be reached. A routine starts as an empty container and changes by calls of
  the primitives, with whatever handles and in whatever order, refused or not.

  `Change` says once what a call that is not refused can do, with the conditions that its check
  establishes on a forest. Every such change keeps the forest, so every reachable routine is
  one (`Reachable.forest`), and a refused call changes nothing, as no look-up after its check
  fails (`Primitive.eq_of_refused`). If moreover nodes only use variables that were declared
  before, the use-lists are right as well (`Run.sound_of_run`).
-/
import CilFold.Proofs.Stages

namespace CilFold

/-! ## Calls -/

/-- What a call answers. -/
inductive Answer where
  | done
  | node (id : NodeId)
  | declared (id : VarId)

/-- The variables that an answer gives the handle of. -/
def Answer.vars : Answer → List VarId
  | declared id => [id]
  | _ => []

/-- A call of the interface through which routines are built and changed. -/
inductive Primitive where
  | declare (kind : VariableKind) (index : UInt16) (name : String) (type : TypeDecl)
  | retype (id : VarId) (type : TypeDecl)
  /-- The builders of nodes that have no operands. -/
  | leaf (op : Op) (h : op.arity? = some 0)
  | create (op : Op) (children : List NodeId)
  | newBlock (container : NodeId) (kind : BlockKind)
  | push (block inst : NodeId)
  | insert (block : NodeId) (index : Nat) (inst : NodeId)
  | remove (block : NodeId) (index : Nat)
  | replace (id new : NodeId)
  | extract (id : NodeId)
  | clone (id : NodeId)

namespace Primitive

/-- Makes the call. -/
def run : Primitive → Edit Answer
  | declare kind index name type => Answer.declared <$> Edit.declare kind index name type
  | retype id type => (fun _ => .done) <$> Edit.retype id type
  | leaf op _ => Answer.node <$> Edit.alloc op []
  | create op children => Answer.node <$> Edit.create op children
  | newBlock container kind => Answer.node <$> Edit.newBlock container kind
  | push block inst => (fun _ => .done) <$> Edit.push block inst
  | insert block index inst => (fun _ => .done) <$> Edit.insert block index inst
  | remove block index => (fun _ => .done) <$> Edit.remove block index
  | replace id new => (fun _ => .done) <$> Edit.replace id new
  | extract id => Answer.node <$> Edit.extract id
  | clone id => Answer.node <$> Edit.clone id

/-- The builder of a load. -/
def load (v : VarId) : Primitive := leaf (.ldloc v) rfl

/-- The builder of a `nop`. -/
def nop : Primitive := leaf .nop rfl

/-- The builder of a container, which has no blocks yet. -/
def newContainer : Primitive := leaf .container rfl

/-- The variable that the call puts into a node. -/
def var? : Primitive → Option VarId
  | leaf op _ => op.var?
  | create op _ => op.var?
  | _ => none

/-- The call is for a node with the operation and the operands. -/
def Makes : Primitive → Op → List NodeId → Prop
  | leaf op _, op', cs => op' = op ∧ cs = []
  | create op children, op', cs => op' = op ∧ cs = children
  | _, _, _ => False

/-- A call puts no other variable into a node than that of the node's operation. -/
theorem Makes.var?_eq {p : Primitive} {op : Op} {cs : List NodeId} (h : p.Makes op cs) :
    p.var? = op.var? := by
  cases p with
  | leaf op' _ => rw [var?, h.1]
  | create op' _ => rw [var?, h.1]
  | _ => exact h.elim

end Primitive

/-- The routines that some calls make of an empty one. -/
inductive Reachable : Routine → Prop where
  | empty (token : Token) (name : String) : Reachable (Routine.empty token name)
  | called {r s : Routine} {a : Answer} (p : Primitive) :
      Reachable r → p.run r = .ok a s → Reachable s
  | refused {r s : Routine} {fault : Fault} (p : Primitive) :
      Reachable r → p.run r = .error fault s → Reachable s

/-- The routine that a call leaves, whether it was refused or not. -/
def Primitive.after (r : Routine) (p : Primitive) : Routine :=
  match p.run r with
  | .ok _ s => s
  | .error _ s => s

theorem Reachable.after {r : Routine} (h : Reachable r) (ps : List Primitive) :
    Reachable (ps.foldl Primitive.after r) := by
  induction ps generalizing r with
  | nil => exact h
  | cons p ps ih =>
    refine ih ?_
    unfold Primitive.after
    split
    · next hrun => exact .called p h hrun
    · next hrun => exact .refused p h hrun

/-- The routines that some calls make of an empty one, with the handles of the variables
    declared so far. A call puts a variable into a node only after it was declared. -/
inductive Run : List VarId → Routine → Prop where
  | empty (token : Token) (name : String) : Run [] (Routine.empty token name)
  | called {given : List VarId} {r s : Routine} {a : Answer} (p : Primitive) : Run given r →
      (∀ v, p.var? = some v → v ∈ given) → p.run r = .ok a s → Run (a.vars ++ given) s
  | refused {given : List VarId} {r s : Routine} {fault : Fault} (p : Primitive) : Run given r →
      (∀ v, p.var? = some v → v ∈ given) → p.run r = .error fault s → Run given s

/-! ## What a call can do -/

namespace Routine

/-- The changes that a call makes to a forest if it is not refused, with what its check has
    found. A new node has an operation and operands that `made` allows. -/
inductive Change (made : Op → List NodeId → Prop) (r : Routine) : Routine → Prop where
  | declare (kind : VariableKind) (index : UInt16) (name : String) (type : TypeDecl) :
      Change made r { r with vars := r.vars.push { id := ⟨r.vars.size⟩, kind, index, name, type } }
  | retype (id : VarId) (type : TypeDecl) :
      Change made r (r.modifyVariable id fun v => { v with type })
  | grow {op : Op} {cs : List NodeId} : cs.Nodup → (∀ c ∈ cs, r.Detached c) →
      checkArity op cs.length = .ok () → made op cs → Change made r (r.grow op cs)
  | appendBlock {container : NodeId} (kind : BlockKind) : r.op? container = some .container →
      Change made r (r.appendBlock container kind)
  | insertAt {block inst : NodeId} {index : Nat} : r.isBlock block = true →
      index ≤ (r.children block).length → r.Detached inst → r.isBlock inst = false →
      ¬ r.Above inst block → Change made r (r.insertAt block index inst)
  | deleteAt {block inst : NodeId} {index : Nat} : r.isBlock block = true →
      (r.children block)[index]? = some inst → Change made r (r.deleteAt block index inst)
  | putInSlot {parent id new : NodeId} : r.parent? id = some parent → r.Detached new →
      ¬ r.Above new id → r.isBlock new = r.isContainer parent →
      Change made r (r.putInSlot parent id new)
  | detach {parent id : NodeId} : r.parent? id = some parent → r.isContainer parent = false →
      Change made r (r.detach parent id)
  | copied {s : Routine} : s.Forest → Copied r s → Change made r s

end Routine

namespace Edit

open Routine

variable {α β : Type} {r s : Routine} {check : Routine → Except Fault β}
  {answer : Routine → β → α} {effect : Routine → β → Routine} {fault : Fault} {a : α}

theorem step_ok : step check answer effect r = .ok a s ↔
    ∃ b, check r = .ok b ∧ answer r b = a ∧ effect r b = s := by
  unfold step
  cases check r with
  | error _ => exact ⟨fun h => (nomatch h), fun ⟨_, h, _⟩ => (nomatch h)⟩
  | ok b =>
    constructor
    · intro h
      cases h
      exact ⟨b, rfl, rfl, rfl⟩
    · rintro ⟨_, hb, rfl, rfl⟩
      cases hb
      rfl

/-- A refused step leaves the routine as it was. -/
theorem eq_of_step_error (h : step check answer effect r = .error fault s) : s = r := by
  unfold step at h
  split at h
  · cases h
    rfl
  · cases h

theorem map_ok {e : Edit α} {f : α → β} {b : β} :
    (f <$> e) r = .ok b s ↔ ∃ a, e r = .ok a s ∧ f a = b := by
  simp only [Functor.map, EStateM.map]
  cases e r with
  | error _ _ => exact ⟨fun h => (nomatch h), fun ⟨_, h, _⟩ => (nomatch h)⟩
  | ok a t =>
    constructor
    · intro h
      cases h
      exact ⟨a, rfl, rfl⟩
    · rintro ⟨_, ha, rfl⟩
      cases ha
      rfl

theorem map_error {e : Edit α} {f : α → β} :
    (f <$> e) r = .error fault s ↔ e r = .error fault s := by
  simp only [Functor.map, EStateM.map]
  cases e r with
  | error _ _ => constructor <;> (intro h; cases h; rfl)
  | ok _ _ => exact ⟨fun h => (nomatch h), fun h => (nomatch h)⟩

end Edit

namespace Primitive

open Routine

variable {r s : Routine} {a : Answer} {fault : Fault}

/-- A call that is not refused makes one of the changes. -/
theorem change (F : r.Forest) (p : Primitive) (h : p.run r = .ok a s) :
    Change p.Makes r s := by
  cases p with
  | declare kind index name type =>
    obtain ⟨_, hrun, _⟩ := Edit.map_ok.mp h
    obtain ⟨_, _, _, rfl⟩ := Edit.step_ok.mp hrun
    exact .declare kind index name type
  | retype id type =>
    obtain ⟨_, hrun, _⟩ := Edit.map_ok.mp h
    obtain ⟨_, _, _, rfl⟩ := Edit.step_ok.mp hrun
    exact .retype id type
  | leaf op h0 =>
    obtain ⟨_, hrun, _⟩ := Edit.map_ok.mp h
    obtain ⟨_, _, _, rfl⟩ := Edit.step_ok.mp hrun
    refine .grow List.nodup_nil (fun c hc => absurd hc List.not_mem_nil) ?_ ⟨rfl, rfl⟩
    refine checkArity_ok.mpr ⟨fun arity ha => ?_, fun _ => Nat.zero_le 1⟩
    exact Option.some.inj (h0.symm.trans ha)
  | create op cs =>
    obtain ⟨_, hrun, _⟩ := Edit.map_ok.mp h
    obtain ⟨_, hcheck, _, rfl⟩ := Edit.step_ok.mp hrun
    obtain ⟨_, harity, hcs⟩ := bind_eq_ok.mp hcheck
    obtain ⟨hnd, hall⟩ := (checkOperands_ok F).mp hcs
    exact .grow hnd (fun c hc => (hall c hc).2) harity ⟨rfl, rfl⟩
  | newBlock container kind =>
    obtain ⟨_, hrun, _⟩ := Edit.map_ok.mp h
    rw [Edit.newBlock_eq] at hrun
    obtain ⟨_, hcheck, _, rfl⟩ := Edit.step_ok.mp hrun
    simp only [checkContainer, bind_eq_ok, find_ok, accept_eq_ok] at hcheck
    obtain ⟨n, hn, hc, _⟩ := hcheck
    refine .appendBlock kind ?_
    rw [op?_of_node? hn]
    unfold Op.isContainer at hc
    split at hc
    · next hop => rw [hop]
    · cases hc
  | push block inst =>
    obtain ⟨_, hrun, _⟩ := Edit.map_ok.mp h
    rw [Edit.push_eq F] at hrun
    obtain ⟨_, hcheck, _, rfl⟩ := Edit.step_ok.mp hrun
    obtain ⟨b, hb, hcheck⟩ := bind_eq_ok.mp hcheck
    obtain ⟨hblock, _, hd, hinst, habove⟩ := (checkInsert_ok F).mp hcheck
    exact .insertAt hblock (Nat.le_refl _) hd hinst habove
  | insert block index inst =>
    obtain ⟨_, hrun, _⟩ := Edit.map_ok.mp h
    rw [Edit.insert_eq F] at hrun
    obtain ⟨_, hcheck, _, rfl⟩ := Edit.step_ok.mp hrun
    obtain ⟨hblock, hle, hd, hinst, habove⟩ := (checkInsert_ok F).mp hcheck
    exact .insertAt hblock hle hd hinst habove
  | remove block index =>
    obtain ⟨_, hrun, _⟩ := Edit.map_ok.mp h
    rw [Edit.remove_eq] at hrun
    obtain ⟨inst, hcheck, _, rfl⟩ := Edit.step_ok.mp hrun
    obtain ⟨hblock, hinst⟩ := checkRemove_ok.mp hcheck
    exact .deleteAt hblock hinst
  | replace id new =>
    obtain ⟨_, hrun, _⟩ := Edit.map_ok.mp h
    rw [Edit.replace_eq F] at hrun
    obtain ⟨parent, hcheck, _, rfl⟩ := Edit.step_ok.mp hrun
    obtain ⟨hp, hd, habove, hrole⟩ := (checkReplace_ok F).mp hcheck
    exact .putInSlot hp hd habove hrole
  | extract id =>
    obtain ⟨_, hrun, _⟩ := Edit.map_ok.mp h
    rw [Edit.extract_eq F] at hrun
    obtain ⟨parent, hcheck, _, rfl⟩ := Edit.step_ok.mp hrun
    obtain ⟨hp, _, hcontainer⟩ := (checkExtract_ok F).mp hcheck
    exact .detach hp hcontainer
  | clone id =>
    obtain ⟨new, hrun, _⟩ := Edit.map_ok.mp h
    cases hid : r.isAlive id with
    | false =>
      rw [Edit.clone_of_dead (isAlive_eq_false_iff.mp hid)] at hrun
      cases hrun
    | true =>
      obtain ⟨s, u, hok, Fs, hcopy, _⟩ := Edit.clone_spec F (F.holds_tree hid)
      rw [label_tree, hrun] at hok
      cases hok
      exact .copied Fs hcopy

/-- A refused call leaves a forest as it was. -/
theorem eq_of_refused (F : r.Forest) (p : Primitive) (h : p.run r = .error fault s) : s = r := by
  cases p with
  | newBlock container kind =>
    have hrun := Edit.map_error.mp h
    rw [Edit.newBlock_eq] at hrun
    exact Edit.eq_of_step_error hrun
  | push block inst =>
    have hrun := Edit.map_error.mp h
    rw [Edit.push_eq F] at hrun
    exact Edit.eq_of_step_error hrun
  | insert block index inst =>
    have hrun := Edit.map_error.mp h
    rw [Edit.insert_eq F] at hrun
    exact Edit.eq_of_step_error hrun
  | remove block index =>
    have hrun := Edit.map_error.mp h
    rw [Edit.remove_eq] at hrun
    exact Edit.eq_of_step_error hrun
  | replace id new =>
    have hrun := Edit.map_error.mp h
    rw [Edit.replace_eq F] at hrun
    exact Edit.eq_of_step_error hrun
  | extract id =>
    have hrun := Edit.map_error.mp h
    rw [Edit.extract_eq F] at hrun
    exact Edit.eq_of_step_error hrun
  | clone id =>
    -- the copies made before a refusal would stay, but a live node of a forest is never refused
    have hrun := Edit.map_error.mp h
    cases hid : r.isAlive id with
    | false =>
      rw [Edit.clone_of_dead (isAlive_eq_false_iff.mp hid)] at hrun
      cases hrun
      rfl
    | true =>
      obtain ⟨s, u, hok, _⟩ := Edit.clone_spec F (F.holds_tree hid)
      rw [label_tree, hrun] at hok
      cases hok
  | _ => exact Edit.eq_of_step_error (Edit.map_error.mp h)

/-- The variables whose handles a call answers are declared after it. -/
theorem declared_lt (p : Primitive) (h : p.run r = .ok a s) :
    ∀ v ∈ a.vars, v.index < s.vars.size := by
  intro v hv
  cases p with
  | declare kind index name type =>
    obtain ⟨w, hrun, rfl⟩ := Edit.map_ok.mp h
    obtain ⟨_, _, rfl, rfl⟩ := Edit.step_ok.mp hrun
    rw [List.mem_singleton.mp hv, Array.size_push]
    exact Nat.lt_succ_self _
  | _ =>
    obtain ⟨_, _, rfl⟩ := Edit.map_ok.mp h
    cases hv

end Primitive

/-! ## Invariants -/

namespace Routine

variable {r s : Routine} {made : Op → List NodeId → Prop}

/-- The forest is a matter of the nodes. -/
theorem Forest.withVars (F : r.Forest) (vars : Array Variable) : Forest { r with vars } :=
  ⟨F.root, fun h => F.nodup h, fun h => F.child h, fun h => F.listed h, F.grounded,
    fun h => F.shared h, fun h => F.lone h, fun h => F.fits h⟩

theorem node?_empty (token : Token) (name : String) (k : NodeId) :
    (Routine.empty token name).node? k =
      if k = ⟨0⟩ then some { op := .container, children := [], connected := true } else none := by
  by_cases hk : k = ⟨0⟩
  · rw [hk]
    rfl
  · rw [if_neg hk]
    refine node?_eq_none_of_size_le (Nat.one_le_iff_ne_zero.mpr fun h => hk (NodeId.ext h))

theorem forest_empty (token : Token) (name : String) : (Routine.empty token name).Forest := by
  have hview : ∀ k, Views (Routine.empty token name) k
      (if k = ⟨0⟩ then some .container else none) [] none (k == ⟨0⟩) := by
    intro k
    have h := node?_empty token name k
    by_cases hk : k = ⟨0⟩
    · rw [if_pos hk] at h
      rw [if_pos hk, beq_iff_eq.mpr hk]
      exact views_some h
    · rw [if_neg hk] at h
      rw [if_neg hk, beq_false_of_ne hk]
      exact views_none h
  refine Forest.of_views ?_ ?_ ?_ ?_ ?_ ?_ ?_
  · rw [(hview _).op, (hview _).parent, (hview _).connected]
    exact ⟨rfl, rfl, rfl⟩
  · intro id
    rw [(hview id).children]
    exact List.nodup_nil
  · intro c id
    rw [(hview id).children, (hview c).parent]
    exact ⟨fun h => absurd h List.not_mem_nil, fun h => (nomatch h)⟩
  · refine WellFounded.intro fun id => Acc.intro id fun p hp => ?_
    rw [(hview id).parent] at hp
    cases hp
  · intro id p hp
    rw [(hview id).parent] at hp
    cases hp
  · intro id _ hc
    rw [(hview id).connected, beq_iff_eq] at hc
    exact hc
  · intro id op hop
    rw [(hview id).op] at hop
    split_ifs at hop
    cases hop
    exact fun _ h => (nomatch h)

theorem Change.forest (F : r.Forest) (h : Change made r s) : s.Forest := by
  cases h with
  | declare => exact F.withVars _
  | retype => exact F.withVars _
  | grow hnd hcs harity _ => exact F.grow hnd hcs (fits_of_checkArity harity)
  | appendBlock kind hc => exact F.appendBlock hc kind
  | insertAt hblock hle hd _ habove => exact F.insertAt hblock hle hd habove
  | deleteAt hblock hinst => exact F.deleteAt hblock hinst
  | putInSlot hp hd habove => exact F.putInSlot hp hd habove
  | detach hp => exact F.detach hp
  | copied Fs _ => exact Fs

/-- The variables bear the handles under which they are found. -/
def Numbered (r : Routine) : Prop := ∀ v x, r.var? v = some x → x.id = v

theorem Numbered.congr (N : r.Numbered) (h : SameHead r s) : s.Numbered := by
  intro v x hx
  have hv := h.var? v
  rw [hx, Option.map_some] at hv
  obtain ⟨y, hy, hbare⟩ := Option.map_eq_some_iff.mp hv.symm
  have hid : y.bare.id = x.bare.id := congrArg Variable.id hbare
  exact hid.symm.trans (N v y hy)

theorem var?_push {x : Variable} {v : VarId} :
    Routine.var? { r with vars := r.vars.push x } v =
      if v.index = r.vars.size then some x else r.var? v := by
  rw [Routine.var?, Array.getElem?_push, Routine.var?]

/-- The empty use-lists of a new variable are right exactly if no node of the tree uses the
    handle that the variable gets. -/
theorem UsesListed.push_iff (U : r.UsesListed) {x : Variable} (hx : ∀ kind, x.uses kind = []) :
    UsesListed { r with vars := r.vars.push x } ↔
      ∀ k kind, r.use? k ≠ some (kind, ⟨r.vars.size⟩) := by
  constructor
  · intro U' k kind hu
    have hmem := ((U' ⟨r.vars.size⟩ x (var?_push.trans (if_pos rfl)) kind).2 k).mpr hu
    rw [hx kind] at hmem
    exact absurd hmem List.not_mem_nil
  · intro hfree v y hy kind
    rw [var?_push] at hy
    split_ifs at hy with hv
    · obtain rfl : v = ⟨r.vars.size⟩ := VarId.ext hv
      rw [← Option.some.inj hy, hx kind]
      exact ⟨List.nodup_nil, fun k => ⟨fun h => absurd h List.not_mem_nil,
        fun hu => absurd hu (hfree k kind)⟩⟩
    · exact U v y hy kind

theorem Change.numbered (N : r.Numbered) (h : Change made r s) : s.Numbered := by
  cases h with
  | declare =>
    intro v x hx
    rw [var?_push] at hx
    split_ifs at hx with hv
    · cases hx
      exact VarId.ext hv.symm
    · exact N v x hx
  | retype id type =>
    intro v x hx
    rw [var?_modifyVariable] at hx
    split_ifs at hx
    · obtain ⟨y, hy, rfl⟩ := Option.map_eq_some_iff.mp hx
      exact N v y hy
    · exact N v x hx
  | grow => exact N.congr (sameHead_grow r _ _)
  | appendBlock => exact N.congr (sameHead_appendBlock r _ _)
  | insertAt => exact N.congr (sameHead_insertAt r _ _ _)
  | deleteAt => exact N.congr (sameHead_deleteAt r _ _ _)
  | putInSlot => exact N.congr (sameHead_putInSlot r _ _ _)
  | detach => exact N.congr (sameHead_detach r _ _)
  | copied _ hc =>
    intro v x hx
    rw [var?, hc.vars] at hx
    exact N v x hx

/-- Every operation after a change was there before, uses no variable, or was put into a new
    node as `made` allows. -/
theorem Change.op? (F : r.Forest) (h : Change made r s) {k : NodeId} {op : Op}
    (hop : s.op? k = some op) :
    (∃ j, r.op? j = some op) ∨ op.var? = none ∨ ∃ cs, made op cs := by
  cases h with
  | declare => exact .inl ⟨k, hop⟩
  | retype => exact .inl ⟨k, hop⟩
  | grow _ hcs _ hmade =>
    rw [(views_grow _ (fun c hc => (hcs c hc).alive) k).op] at hop
    split_ifs at hop
    · cases hop
      exact .inr (.inr ⟨_, hmade⟩)
    · exact .inl ⟨k, hop⟩
  | appendBlock kind hc =>
    obtain ⟨n, hn, _⟩ := Option.map_eq_some_iff.mp hc
    rw [(views_appendBlock (isAlive_of_node? hn) kind k).op] at hop
    split_ifs at hop
    · cases hop
      exact .inr (.inl rfl)
    · exact .inl ⟨k, hop⟩
  | insertAt hblock _ hd _ habove =>
    obtain ⟨n, hn, _⟩ := exists_of_isBlock hblock
    rw [(views_insertAt F hd.alive (isAlive_of_node? hn) habove _ k).op] at hop
    exact .inl ⟨k, hop⟩
  | deleteAt _ hinst =>
    rw [(views_deleteAt F (F.parent?_of_mem (List.mem_of_getElem? hinst)) _ k).op] at hop
    split_ifs at hop
    exact .inl ⟨k, hop⟩
  | putInSlot hp hd habove _ =>
    rw [(views_putInSlot F hp hd.alive hd.top habove k).op] at hop
    split_ifs at hop
    exact .inl ⟨k, hop⟩
  | detach hp _ =>
    rw [(views_detach F hp k).op] at hop
    split_ifs at hop
    · cases hop
      exact .inr (.inl rfl)
    · exact .inl ⟨k, hop⟩
  | copied _ hc => exact .inl (hc.ops k op hop)

/-- Use-lists stay right under a change that puts only declared variables into nodes. -/
theorem Change.usesListed (F : r.Forest) (U : r.UsesListed)
    (hops : ∀ k op v, r.op? k = some op → op.var? = some v → v.index < r.vars.size)
    (h : Change made r s) : s.UsesListed := by
  cases h with
  | declare =>
    refine (U.push_iff fun kind => by cases kind <;> rfl).mpr fun k kind hu => ?_
    obtain ⟨n, hn, _, hu⟩ := use?_eq_some hu
    exact absurd (hops k n.op _ (op?_of_node? hn) (by rw [Op.var?, hu]; rfl)) (Nat.lt_irrefl _)
  | retype id type => exact U.retype id type
  | grow => exact U.grow _ _
  | appendBlock => exact U.appendBlock _ _
  | insertAt => exact U.insertAt _ _ _
  | deleteAt _ hinst => exact U.deleteAt F (F.parent?_of_mem (List.mem_of_getElem? hinst)) _
  | putInSlot hp => exact U.putInSlot F hp _
  | detach => exact U.detach _ _
  | copied _ hc => exact hc.usesListed U

/-- A change never takes a declared variable away. -/
theorem Change.size_vars (h : Change made r s) : r.vars.size ≤ s.vars.size := by
  cases h with
  | declare => rw [Array.size_push]; exact Nat.le_succ _
  | retype => exact Nat.le_of_eq Array.size_modify.symm
  | grow => exact Nat.le_of_eq (sameHead_grow r _ _).size_vars.symm
  | appendBlock => exact Nat.le_of_eq (sameHead_appendBlock r _ _).size_vars.symm
  | insertAt => exact Nat.le_of_eq (sameHead_insertAt r _ _ _).size_vars.symm
  | deleteAt => exact Nat.le_of_eq (sameHead_deleteAt r _ _ _).size_vars.symm
  | putInSlot => exact Nat.le_of_eq (sameHead_putInSlot r _ _ _).size_vars.symm
  | detach => exact Nat.le_of_eq (sameHead_detach r _ _).size_vars.symm
  | copied _ hc => exact Nat.le_of_eq (congrArg Array.size hc.vars.symm)

end Routine

namespace Reachable

variable {r : Routine}

theorem forest (h : Reachable r) : r.Forest := by
  induction h with
  | empty token name => exact Routine.forest_empty token name
  | called p _ hrun F => exact (p.change F hrun).forest F
  | refused p _ hrun F => exact p.eq_of_refused F hrun ▸ F

theorem numbered (h : Reachable r) : r.Numbered := by
  induction h with
  | empty token name => exact fun v x hx => (nomatch hx)
  | called p hr hrun N => exact (p.change hr.forest hrun).numbered N
  | refused p hr hrun N => exact p.eq_of_refused hr.forest hrun ▸ N

end Reachable

/-! ## Refused calls -/

/-- A call that is refused leaves a routine as it was: its arena, with every node and link, and
    its variables, with every use-list. -/
theorem Primitive.unchanged_of_refused {r s : Routine} {fault : Fault} (h : Reachable r)
    (p : Primitive) (hrun : p.run r = .error fault s) : s = r :=
  p.eq_of_refused h.forest hrun

/-- In a tree outside the routine's, the top cannot take the slot of a node below it. -/
theorem Primitive.unchanged_on_own_top : ∃ r s : Routine, Reachable r ∧
    r.children ⟨2⟩ = [⟨1⟩] ∧ (Primitive.replace ⟨1⟩ ⟨2⟩).run r = .error (.owned ⟨2⟩) s ∧ s = r := by
  have h0 := Reachable.empty ⟨0x06000001⟩ "Draw"
  have h1 := Reachable.called (.load ⟨0⟩) h0 rfl
  have h2 := Reachable.called (.create (.stloc ⟨0⟩) [⟨1⟩]) h1 rfl
  exact ⟨_, _, h2, rfl, rfl, Primitive.unchanged_of_refused h2 (.replace ⟨1⟩ ⟨2⟩) rfl⟩

/-! ## Soundness -/

/-- What holds between the nodes, the links, the marks and the use-lists of a routine, in its
    tree and in the trees outside it. -/
structure Routine.Sound (r : Routine) : Prop where
  body : ∃ n, r.node? r.body = some n ∧ n.op = .container ∧ n.parent = none ∧ n.connected = true
  children : ∀ id n, r.node? id = some n →
    n.children.Nodup ∧ ∀ c ∈ n.children, ∃ m, r.node? c = some m ∧ m.parent = some id
  parent : ∀ id n p, r.node? id = some n → n.parent = some p →
    ∃ q, r.node? p = some q ∧ q.children.count id = 1
  acyclic : ∀ id, ¬ Relation.TransGen (fun id p => r.parent? id = some p) id id
  connected : ∀ id,
    r.isConnected id = true ↔ Relation.ReflTransGen (fun p c => c ∈ r.children p) r.body id
  arity : ∀ id n, r.node? id = some n → n.op.Fits n.children.length
  uses : ∀ v x, r.var? v = some x → ∀ kind,
    (x.uses kind).Nodup ∧ ∀ id, id ∈ x.uses kind ↔
      ∃ n, r.node? id = some n ∧ n.connected = true ∧ n.op.use? = some (kind, v)

namespace Run

variable {given : List VarId} {r : Routine}

theorem reachable (h : Run given r) : Reachable r := by
  induction h with
  | empty token name => exact .empty token name
  | called p _ _ hrun ih => exact .called p ih hrun
  | refused p _ _ hrun ih => exact .refused p ih hrun

/-- On a run, the given handles are those of declared variables, and nodes use no others. -/
theorem declared (h : Run given r) :
    (∀ v ∈ given, v.index < r.vars.size) ∧
      ∀ k op v, r.op? k = some op → op.var? = some v → v ∈ given := by
  induction h with
  | empty token name =>
    refine ⟨fun v hv => absurd hv List.not_mem_nil, fun k op v hop hv => ?_⟩
    rw [Routine.op?, Routine.node?_empty] at hop
    split_ifs at hop
    · cases hop
      cases hv
    · cases hop
  | @called given r s a p hr hgiven hrun ih =>
    have hchange := p.change hr.reachable.forest hrun
    refine ⟨fun v hv => ?_, fun k op v hop hv => List.mem_append_right _ ?_⟩
    · rcases List.mem_append.mp hv with hv | hv
      · exact p.declared_lt hrun v hv
      · exact Nat.lt_of_lt_of_le (ih.1 v hv) hchange.size_vars
    · rcases hchange.op? hr.reachable.forest hop with ⟨j, hj⟩ | hnone | ⟨cs, hmade⟩
      · exact ih.2 j op v hj hv
      · cases hv.symm.trans hnone
      · exact hgiven v (hmade.var?_eq.trans hv)
  | refused p hr _ hrun ih => exact p.eq_of_refused hr.reachable.forest hrun ▸ ih

theorem usesListed (h : Run given r) : r.UsesListed := by
  induction h with
  | empty token name => exact fun v x hx => (nomatch hx)
  | called p hr _ hrun U =>
    obtain ⟨hlt, hops⟩ := hr.declared
    exact (p.change hr.reachable.forest hrun).usesListed hr.reachable.forest U
      fun k op v hop hv => hlt v (hops k op v hop hv)
  | refused p hr _ hrun U => exact p.eq_of_refused hr.reachable.forest hrun ▸ U

/-- Every routine that is built with declared variables is sound. -/
theorem sound_of_run (h : Run given r) : r.Sound := by
  have F := h.reachable.forest
  refine ⟨F.root, fun id n hn => ⟨F.nodup hn, fun c hc => ?_⟩, fun id n p hn hp => ?_,
    fun id hid => ?_, fun id => ?_, fun id n hn => F.fits hn, fun v x hx kind => ?_⟩
  · exact Routine.exists_node?_of_parent? (F.child hn hc)
  · have hmem := F.listed ((Routine.parent?_of_node? hn).trans hp)
    obtain ⟨q, hq, hmem⟩ := Routine.exists_node?_of_mem_children hmem
    exact ⟨q, hq, List.count_eq_one_of_mem (F.nodup hq) hmem⟩
  · obtain ⟨p, hp, habove⟩ := Relation.TransGen.head'_iff.mp hid
    exact F.not_above_parent hp habove
  · rw [F.isConnected_iff_above, Routine.Above, ← Relation.reflTransGen_swap]
    refine Iff.of_eq (congrArg (fun R => Relation.ReflTransGen R r.body id) ?_)
    funext p c
    exact propext F.mem_children_iff.symm
  · obtain ⟨hnd, hmem⟩ := h.usesListed v x hx kind
    refine ⟨hnd, fun id => (hmem id).trans ⟨Routine.use?_eq_some, ?_⟩⟩
    rintro ⟨n, hn, hc, hu⟩
    rw [Routine.use?_of_node? hn, if_pos hc, hu]

/-- A run that declares a variable, stores it into itself in a block of the body, copies the
    store, takes its value out and is refused a handle that never existed. -/
theorem sound_after_extract : ∃ given r, Run given r ∧ r.isConnected ⟨3⟩ = true ∧
    r.isConnected ⟨2⟩ = false ∧ r.Sound := by
  have h0 := Run.empty ⟨0x06000001⟩ "Draw"
  have h1 := Run.called (.declare .localSlot 0 "x" .void) h0 (fun _ h => (nomatch h)) rfl
  have h2 := Run.called (.newBlock ⟨0⟩ .controlFlow) h1 (fun _ h => (nomatch h)) rfl
  have h3 := Run.called (.load ⟨0⟩) h2 (by decide) rfl
  have h4 := Run.called (.create (.stloc ⟨0⟩) [⟨2⟩]) h3 (by decide) rfl
  have h5 := Run.called (.push ⟨1⟩ ⟨3⟩) h4 (fun _ h => (nomatch h)) rfl
  have h6 := Run.called (.clone ⟨3⟩) h5 (fun _ h => (nomatch h)) rfl
  have h7 := Run.called (.extract ⟨2⟩) h6 (fun _ h => (nomatch h)) rfl
  have h8 := Run.refused (.remove ⟨99⟩ 0) h7 (fun _ h => (nomatch h)) rfl
  exact ⟨_, _, h8, rfl, rfl, sound_of_run h8⟩

end Run

/-- The type of the receiver in the sample routines. -/
def TypeDecl.widget : TypeDecl := ⟨⟨0x02000001⟩, "Shop", "Widget", 0, .object⟩

end CilFold
