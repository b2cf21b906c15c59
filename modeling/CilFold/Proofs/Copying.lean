/-
  What a copy of a subtree is. `Copy` says where the nodes of the copy come to stand, that the
  copy has the operations of the source, and that nothing else changes. In every reachable
  routine a live node can be copied, and what comes out is such a copy (`clone_copies`).
-/
import CilFold.Proofs.Comparison

namespace CilFold

namespace Routine

/-- The second routine is the first one with a copy of the tree below a node. -/
structure Copy (r s : Routine) (id new : NodeId) : Prop where
  /-- The copy has as many nodes as the source. -/
  size : s.nodes.size = r.nodes.size + (r.preorder id).length
  /-- Its nodes have the next handles, each node behind its operands, these from first to
      last. -/
  handles : (s.tree new).steps.map Prod.fst = r.nextIds (r.preorder id).length
  last : new = ⟨r.nodes.size + (r.preorder id).length - 1⟩
  detached : ∀ k ∈ r.nextIds (r.preorder id).length,
    s.isAlive k = true ∧ s.isConnected k = false
  top : s.parent? new = none
  /-- The operations of the copy are those of the source, with all their components. -/
  bare : (s.tree new).bare = (r.tree id).bare
  same : s.sameTree id new = true
  old : ∀ k : NodeId, k.index < r.nodes.size → s.node? k = r.node? k
  vars : s.vars = r.vars
  head : s.token = r.token ∧ s.name = r.name ∧ s.body = r.body

end Routine

namespace Edit

open Routine

variable {r s : Routine} {id : NodeId} {t u : Tree NodeId}

/-- A copy has one step for each node of its source. -/
theorem CopiesOf.length_steps (h : CopiesOf r s [t] [u]) : u.steps.length = t.labels.length := by
  have hbare : u.bare = t.bare := (List.cons.inj h.bare).1
  have hsteps := u.steps_perm.length_eq
  rw [List.length_map] at hsteps
  rw [hsteps, ← u.length_labels_bare, hbare, t.length_labels_bare]

/-- The top of a copy comes last. -/
theorem CopiesOf.label_eq (h : CopiesOf r s [t] [u]) :
    u.label = ⟨r.nodes.size + u.steps.length - 1⟩ := by
  have hhandles := h.handles
  rw [List.flatMap_singleton] at hhandles
  cases u with
  | node k op us =>
    rw [Tree.steps_node, List.map_append, List.length_append, List.length_singleton,
      nextIds_succ] at hhandles
    obtain ⟨_, hlast⟩ := List.append_inj' hhandles rfl
    rw [Tree.steps_node, List.length_append, List.length_singleton]
    exact (List.cons.inj hlast).1

end Edit

namespace Reachable

open Routine Edit

variable {r : Routine} {id : NodeId}

/-- Copying a live node of a reachable routine succeeds, and gives a copy of the tree below
    it. -/
theorem clone_copies (h : Reachable r) (hid : r.isAlive id = true) :
    ∃ s new, clone id r = .ok new s ∧ r.Copy s id new := by
  have F := h.forest
  have ht := F.holds_tree hid
  obtain ⟨s, u, hclone, Fs, hcopied, hcopy⟩ := clone_spec F ht
  rw [label_tree] at hclone
  have hu : s.Holds u := hcopy.holds u (List.mem_singleton_self u)
  have htree : s.tree u.label = u := Fs.tree_of_holds hu
  have hcount : u.steps.length = (r.preorder id).length := by
    rw [hcopy.length_steps, F.labels_eq_preorder ht, label_tree]
  have hhandles := hcopy.handles
  have hsize := hcopy.size
  rw [List.flatMap_singleton, hcount] at hhandles hsize
  have hbare : u.bare = (r.tree id).bare := (List.cons.inj hcopy.bare).1
  have hdetached := hcopy.detached u (List.mem_singleton_self u)
  -- the source is held in the new arena as well
  have hsource : s.tree id = r.tree id := by
    have hkept := Fs.tree_of_holds (hcopied.holds ht)
    rwa [label_tree] at hkept
  refine ⟨s, u.label, hclone, hsize, ?_, hcount ▸ hcopy.label_eq, fun k hk => ?_,
    hdetached.top, ?_, ?_, hcopied.old, hcopied.vars, hcopied.token, hcopied.name, hcopied.body⟩
  · rw [htree, hhandles]
  · have hnew : k ∈ u.labels := by rwa [← hhandles, u.steps_perm.mem_iff] at hk
    obtain ⟨w, hw, rfl⟩ := List.mem_map.mp hnew
    exact ⟨(hu.subtree hw).alive, hcopied.loose w.label (mem_nextIds.mp hk).1⟩
  · rw [htree, hbare]
  · have halive : s.isAlive id = true := by
      obtain ⟨n, hn⟩ := isAlive_iff.mp hid
      exact isAlive_of_node? (hcopied.node? hn)
    rw [Fs.sameTree_iff halive hu.alive, hsource, htree]
    exact Tree.shape_eq_of_bare hbare.symm

/-- The copy of a store gets the next three handles, and its load is not listed as a use. -/
theorem clone_copies_store : ∃ r s, Reachable r ∧ clone ⟨4⟩ r = .ok ⟨7⟩ s ∧
    r.preorder ⟨4⟩ = [⟨4⟩, ⟨3⟩, ⟨2⟩] ∧ s.preorder ⟨7⟩ = [⟨7⟩, ⟨6⟩, ⟨5⟩] ∧
    s.loads ⟨0⟩ = [⟨2⟩] ∧ r.Copy s ⟨4⟩ ⟨7⟩ := by
  have h0 := Reachable.empty ⟨0x06000001⟩ "Draw"
  have h1 := Reachable.called (.declare .localSlot 0 "x" .void) h0 rfl
  have h2 := Reachable.called (.newBlock ⟨0⟩ .controlFlow) h1 rfl
  have h3 := Reachable.called (.load ⟨0⟩) h2 rfl
  have h4 := Reachable.called (.create (.unbox .void) [⟨2⟩]) h3 rfl
  have h5 := Reachable.called (.create (.stloc ⟨0⟩) [⟨3⟩]) h4 rfl
  have h6 := Reachable.called (.push ⟨1⟩ ⟨4⟩) h5 rfl
  obtain ⟨s, new, hclone, hcopy⟩ := @clone_copies _ ⟨4⟩ h6 rfl
  obtain rfl : (⟨7⟩ : NodeId) = new := hcopy.last.symm
  cases hclone
  exact ⟨_, _, h6, rfl, by decide +kernel, by decide +kernel, rfl, hcopy⟩

end Reachable

end CilFold
