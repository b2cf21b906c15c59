/-
  Declaring a variable. Nodes may come into the tree with the handle of a variable that is not
  declared; they are in no use-list then. The variable that gets the handle later starts with
  empty use-lists, and these are wrong. So declaring a variable keeps a routine valid exactly
  if no node of the tree uses the next handle (`Edit.declare_keeps_valid_iff`).
-/
import CilFold.Proofs.Validity

namespace CilFold

open Routine

namespace Edit

variable {r : Routine}

/-- A valid routine is valid after a variable was declared exactly if no node of its tree uses
    the handle that the variable gets. -/
theorem declare_keeps_valid_iff (hreach : Reachable r) (hvalid : r.validate = .ok ())
    (kind : VariableKind) (index : UInt16) (name : String) (type : TypeDecl) :
    ∃ s, declare kind index name type r = .ok ⟨r.vars.size⟩ s ∧
      (s.validate = .ok () ↔ ∀ k op, r.isConnected k = true → r.op? k = some op →
        op.var? ≠ some ⟨r.vars.size⟩) := by
  have V := (valid_iff hreach).mp hvalid
  let x : Variable := { id := ⟨r.vars.size⟩, kind, index, name, type }
  have hreach' : Reachable { r with vars := r.vars.push x } :=
    .called (.declare kind index name type) hreach rfl
  have huses := V.uses.push_iff (x := x) fun kind => by cases kind <;> rfl
  refine ⟨_, rfl, (valid_iff hreach').trans ?_⟩
  constructor
  · intro V' k op hconn hop hvar
    obtain ⟨n, hn, hc⟩ := exists_node?_of_isConnected hconn
    obtain rfl : n.op = op := Option.some.inj ((op?_of_node? hn).symm.trans hop)
    obtain ⟨⟨use, v⟩, hu, rfl⟩ := Option.map_eq_some_iff.mp hvar
    refine huses.mp V'.uses k use ?_
    rw [use?_of_node? hn, if_pos hc, hu]
  · intro hfree
    refine ⟨V.forest.withVars _, hreach'.numbered, V.inPlace, huses.mpr fun k use hu => ?_⟩
    obtain ⟨n, hn, hc, hu⟩ := use?_eq_some hu
    refine hfree k n.op ((isConnected_of_node? hn).trans hc) (op?_of_node? hn) ?_
    rw [Op.var?, hu]
    rfl

namespace Sample

/-- The calls that build `ret(ldloc v)` in a block of the body, for a handle that no variable
    needs to have. -/
def returnCalls (v : VarId) : List Primitive :=
  [.newBlock ⟨0⟩ .controlFlow, .load v, .create .ret [⟨2⟩], .push ⟨1⟩ ⟨3⟩]

def returning (v : VarId) : Routine :=
  (returnCalls v).foldl Primitive.after (Routine.empty ⟨0x06000001⟩ "Draw")

end Sample

/-- The tree loads `v1`, and the variable that is declared is `v0`. -/
theorem valid_after_other_handle :
    (Sample.returning ⟨1⟩).validate = .ok () ∧ (Sample.returning ⟨1⟩).vars = #[] ∧
    ∃ s, declare .localSlot 0 "x" .void (Sample.returning ⟨1⟩) = .ok ⟨0⟩ s ∧
      s.validate = .ok () := by
  have hreach : Reachable (Sample.returning ⟨1⟩) := (Reachable.empty _ _).after _
  have hvalid : (Sample.returning ⟨1⟩).validate = .ok () := by decide +kernel
  obtain ⟨s, hrun, hiff⟩ := declare_keeps_valid_iff hreach hvalid .localSlot 0 "x" .void
  have hfree : ∀ k ∈ (Sample.returning ⟨1⟩).slots,
      ((Sample.returning ⟨1⟩).op? k).bind Op.var? ≠ some ⟨0⟩ := by decide +kernel
  refine ⟨hvalid, by decide +kernel, s, hrun, hiff.mpr fun k op _ hop hvar => ?_⟩
  obtain ⟨n, hn, _⟩ := Option.map_eq_some_iff.mp hop
  refine hfree k (mem_slots_of_node? hn) ?_
  rw [hop]
  exact hvar

/-- The tree loads `v0` before it is declared; the declared variable has no loads. -/
theorem flaw_after_used_handle : ∃ r s : Routine, Reachable r ∧ r.validate = .ok () ∧
    declare .localSlot 0 "x" .void r = .ok ⟨0⟩ s ∧
    s.validate = .error (.useList .load ⟨0⟩ "x" [] [⟨2⟩]) := by
  have hreach : Reachable (Sample.returning ⟨0⟩) := (Reachable.empty _ _).after _
  exact ⟨_, _, hreach, by decide +kernel, rfl, by decide +kernel⟩

end Edit

end CilFold
