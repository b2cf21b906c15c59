/-
  Edits work in stages: a check, then changes that look up their nodes one by one. On a forest
  no look-up after the check fails, so that an edit is its check followed by one effect
  (`newBlock_eq`, `insert_eq`, `push_eq`, `remove_eq`, `replace_eq`, `extract_eq`).

  For `replace_eq` this takes the forest: by the time the parent and the new node are looked up,
  the tree in the slot is destroyed, and neither of them may have been part of it.
-/
import CilFold.Proofs.Checks

namespace CilFold

namespace Routine

variable {r : Routine} {id k root : NodeId}

theorem isAlive_modifyNode (r : Routine) (id k : NodeId) (f : Node → Node) :
    (r.modifyNode id f).isAlive k = r.isAlive k := isAlive_of_map (node?_modifyNode_map r id f k)

/-- Child lists and parent links can change without the marks. -/
theorem isConnected_relink (r : Routine) (block inst k : NodeId)
    (f : List NodeId → List NodeId) (parent : Option NodeId) :
    ((r.mapChildren block f).setParent inst parent).isConnected k = r.isConnected k := by
  rw [isConnected, setParent, node?_modifyNode_map, mapChildren, node?_modifyNode_map, isConnected]
  cases r.node? k with
  | none => rfl
  | some n =>
    simp only [Option.map_some, Option.any_some]
    split_ifs <;> rfl

theorem isAlive_disconnect (r : Routine) (root k : NodeId) :
    (r.disconnect root).isAlive k = r.isAlive k := by
  rw [isAlive, node?_disconnect, isAlive]
  split <;> simp

/-- Growing keeps what is alive. -/
theorem isAlive_grow (op : Op) (cs : List NodeId) (h : r.isAlive k = true) :
    (r.grow op cs).isAlive k = true := by
  have hne : k ≠ r.nextId := (ne_of_dead (node?_nextId r) h).symm
  rw [isAlive, node?_grow, if_neg hne]
  split
  · rwa [Option.isSome_map]
  · exact h

theorem isAlive_grow_nextId (r : Routine) (op : Op) (cs : List NodeId) :
    (r.grow op cs).isAlive r.nextId = true := isAlive_of_node? (node?_grow_nextId r op cs)

end Routine

namespace Edit

open Routine

variable {α β : Type} {r s : Routine} {block container id inst new p : NodeId} {index : Nat}

/-! ## Single stages -/

theorem bind_error {e : Edit α} {f : α → Edit β} {fault : Fault} (h : e r = .error fault s) :
    (e >>= f) r = .error fault s := by
  simp only [bind, EStateM.bind, h]

theorem get_bind (f : Routine → Edit α) (r : Routine) : (get >>= f) r = f r r := rfl

theorem modify_bind (g : Routine → Routine) (f : Unit → Edit α) (r : Routine) :
    (modify g >>= f) r = f () (g r) := rfl

theorem alloc_bind (op : Op) (cs : List NodeId) (f : NodeId → Edit α) (r : Routine) :
    (alloc op cs >>= f) r = f r.nextId (r.grow op cs) := rfl

/-- A node that is alive can be changed. -/
theorem amend_ok {f : Node → Node} (h : r.isAlive id = true) :
    amend id f r = .ok () (r.modifyNode id f) := by
  obtain ⟨n, hn⟩ := isAlive_iff.mp h
  exact step_of_ok (find_ok.mpr hn)

theorem amend_bind {f : Node → Node} {g : Unit → Edit α} (h : r.isAlive id = true) :
    (amend id f >>= g) r = g () (r.modifyNode id f) := bind_ok (amend_ok h)

theorem check_ok {look : Routine → Except Fault β} {b : β} (h : look r = .ok b) :
    check look r = .ok b r := step_of_ok h

theorem check_error {look : Routine → Except Fault β} {fault : Fault} (h : look r = .error fault) :
    check look r = .error fault r := step_of_error h

/-- A check followed by stages that all go through is one step. -/
theorem check_bind_eq {look : Routine → Except Fault β} {stages : β → Edit α}
    {answer : Routine → β → α} {effect : Routine → β → Routine}
    (h : ∀ b, look r = .ok b → stages b r = .ok (answer r b) (effect r b)) :
    (check look >>= stages) r = step look answer effect r := by
  cases hlook : look r with
  | error fault => rw [bind_error (check_error hlook), step_of_error hlook]
  | ok b => rw [bind_ok (check_ok hlook), h b hlook, step_of_ok hlook]

/-- Connecting a node at the end if its parent was connected at the start, and still is. -/
theorem connect_ok {t : Routine} (h : s.isConnected p = r.isConnected p)
    (ht : t = s.connectBelow p new) :
    (if r.isConnected p = true then modify (·.connect new) else pure PUnit.unit : Edit Unit) s =
      .ok () t := by
  rw [ht, connectBelow, h]
  split <;> rfl

/-! ## Whole edits -/

theorem newBlock_eq (container : NodeId) (kind : BlockKind) (r : Routine) :
    newBlock container kind r = step (·.checkContainer container) (fun r _ => r.nextId)
      (fun r _ => r.appendBlock container kind) r := by
  rw [newBlock, get_bind]
  refine check_bind_eq fun _ hlook => ?_
  obtain ⟨n, hn, _⟩ := bind_eq_ok.mp hlook
  have hc : r.isAlive container = true := isAlive_of_node? (find_ok.mp hn)
  rw [alloc_bind, amend_bind (isAlive_grow_nextId r _ _), amend_bind]
  · rfl
  · rw [isAlive_modifyNode]
    exact isAlive_grow _ _ hc

theorem remove_eq (block : NodeId) (index : Nat) (r : Routine) :
    remove block index r = step (·.checkRemove block index) (fun _ _ => ())
      (fun r inst => r.deleteAt block index inst) r := by
  refine check_bind_eq fun inst hlook => ?_
  obtain ⟨n, hn, _⟩ := exists_of_isBlock (checkRemove_ok.mp hlook).1
  rw [amend_bind (isAlive_of_node? hn)]
  rfl

section Forest

variable (F : r.Forest)
include F

theorem insert_eq (block : NodeId) (index : Nat) (inst : NodeId) :
    insert block index inst r = step (·.checkInsert block index inst) (fun _ _ => ())
      (fun r _ => r.insertAt block index inst) r := by
  rw [insert, get_bind]
  refine check_bind_eq fun _ hlook => ?_
  obtain ⟨hblock, _, hinst, _⟩ := (checkInsert_ok F).mp hlook
  obtain ⟨n, hn, _⟩ := exists_of_isBlock hblock
  rw [amend_bind (isAlive_of_node? hn), amend_bind]
  · exact connect_ok (isConnected_relink r block inst block _ _) rfl
  · rw [isAlive_modifyNode]
    exact hinst.alive

/-- Appending is inserting at the end. -/
theorem push_eq (block inst : NodeId) :
    push block inst r = step
      (fun r => do
        let b ← r.checkBlock block
        r.checkInsert block b.children.length inst)
      (fun _ _ => ()) (fun r _ => r.insertAt block (r.children block).length inst) r := by
  cases hb : r.checkBlock block with
  | error fault =>
    rw [push, bind_error (check_error hb), step_of_error (by rw [hb]; rfl)]
  | ok b =>
    rw [push, bind_ok (check_ok hb), insert_eq F]
    simp only [step, hb]
    rw [children_of_node? (checkBlock_ok.mp hb).1]
    rfl

/-- When the tree in the slot is destroyed, the parent and the new node are still there. -/
theorem replace_eq (id new : NodeId) :
    replace id new r = step (·.checkReplace id new) (fun _ _ => ())
      (fun r parent => r.putInSlot parent id new) r := by
  rw [replace, get_bind]
  refine check_bind_eq fun p hlook => ?_
  obtain ⟨hid, hnew, _, _⟩ := (checkReplace_ok F).mp hlook
  obtain ⟨n, hn, _⟩ := exists_node?_of_parent? hid
  have hslot := isAlive_of_node? hn
  obtain ⟨q, hq⟩ := F.exists_parent_node? hid
  have hstays : ∀ k, ¬ r.Above id k →
      ((r.disconnect id).destroy id).node? k = r.node? k := fun k hk => by
    rw [node?_disconnect_destroy F rfl hslot hslot fun _ _ => rfl,
      if_neg fun h => hk (F.encloses_iff.mp h)]
  have hp := hstays p (F.not_above_parent hid)
  have hn := hstays new (hnew.not_above_of_parent? hid)
  have hconn : ((r.disconnect id).destroy id).isConnected p = r.isConnected p := by
    rw [isConnected, hp, isConnected]
  rw [modify_bind, amend_bind, amend_bind]
  · exact connect_ok ((isConnected_relink _ p new p (·.replace id new) (some p)).trans hconn) rfl
  · rw [isAlive_modifyNode, isAlive, hn]
    exact hnew.alive
  · rw [isAlive, hp, hq]
    rfl

theorem extract_eq (id : NodeId) :
    extract id r =
      step (·.checkExtract id) (fun _ _ => id) (fun r parent => r.detach parent id) r := by
  rw [extract, get_bind]
  refine check_bind_eq fun p hlook => ?_
  obtain ⟨hid, _⟩ := (checkExtract_ok F).mp hlook
  obtain ⟨n, hn, _⟩ := exists_node?_of_parent? hid
  obtain ⟨q, hq⟩ := F.exists_parent_node? hid
  have hslot : (r.disconnect id).isAlive id = true := by
    rw [isAlive_disconnect]
    exact isAlive_of_node? hn
  have hp : ((r.disconnect id).modifyNode id fun n => { n with parent := none }).isAlive p := by
    rw [isAlive_modifyNode, isAlive_disconnect]
    exact isAlive_of_node? hq
  have hnext : ((r.disconnect id).modifyNode id fun n => { n with parent := none }).nextId =
      r.nextId := by
    rw [nextId, size_modifyNode, size_disconnect, nextId]
  rw [modify_bind, amend_bind hslot, alloc_bind, amend_bind (isAlive_grow _ _ hp), amend_bind]
  · rw [hnext]
    rfl
  · rw [isAlive_modifyNode]
    exact isAlive_grow_nextId _ _ _

end Forest

/-- On links that run in a circle the parent goes with the slot, and the edit stops halfway. -/
example : ∃ r s, replace ⟨1⟩ ⟨3⟩ r = .error (.missing ⟨2⟩) s ∧ s ≠ r :=
  ⟨{ token := ⟨0x06000001⟩, name := "Draw", vars := #[], body := ⟨0⟩
     nodes := #[some { op := .container, children := [], connected := true },
       some { op := .ret, children := [⟨2⟩], parent := some ⟨2⟩ },
       some { op := .ret, children := [⟨1⟩], parent := some ⟨1⟩ },
       some { op := .nop, children := [] }] }, _, rfl, by decide⟩

end Edit

end CilFold
