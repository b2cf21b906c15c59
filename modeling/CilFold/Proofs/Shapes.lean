/-
  The recognisers, read as statements on the operation and the children of a node, and on the
  tree it is the top of.
-/
import CilFold.Routine.Pattern
import CilFold.Proofs.Held

namespace CilFold.Routine

variable {r : Routine} {address id target value x y : NodeId} {field : FieldDecl} {type : TypeDecl}
  {v : VarId} {n : Node}

/-! ## Shapes of one node -/

/-- What a recogniser of a node with operands looks at. -/
theorem shape_iff {op : Op} {cs : List NodeId} :
    r.op? id = some op ∧ r.children id = cs ↔ ∃ p b, r.node? id = some ⟨op, cs, p, b⟩ := by
  constructor
  · rintro ⟨hop, hc⟩
    obtain ⟨n, hn, rfl⟩ := Option.map_eq_some_iff.mp hop
    rw [children_of_node? hn] at hc
    exact ⟨n.parent, n.connected, hc ▸ hn⟩
  · rintro ⟨p, b, hn⟩
    exact ⟨op?_of_node? hn, children_of_node? hn⟩

theorem ldloc?_eq_some : r.ldloc? id = some v ↔ r.op? id = some (.ldloc v) := by
  unfold ldloc?
  split
  · next h => rw [h, Option.some.injEq, Option.some.injEq, Op.ldloc.injEq]
  · next h => exact iff_of_false (fun he => nomatch he) (h v)

theorem stloc?_eq_some : r.stloc? id = some (v, value) ↔
    r.op? id = some (.stloc v) ∧ r.children id = [value] := by
  rw [shape_iff, stloc?]
  split
  · next hn => simp [hn]
  · next h => simpa using h v value

theorem ldflda?_eq_some : r.ldflda? id = some (target, field) ↔
    r.op? id = some (.ldflda field) ∧ r.children id = [target] := by
  rw [shape_iff, ldflda?]
  split
  · next hn => simp [hn, and_comm]
  · next h => simpa using h field target

theorem ldobj?_eq_some : r.ldobj? id = some (address, type) ↔
    r.op? id = some (.ldobj type) ∧ r.children id = [address] := by
  rw [shape_iff, ldobj?]
  split
  · next hn => simp [hn, and_comm]
  · next h => simpa using h type address

theorem stobj?_eq_some : r.stobj? id = some (address, value, type) ↔
    r.op? id = some (.stobj type) ∧ r.children id = [address, value] := by
  rw [shape_iff, stobj?]
  split
  · next hn => simp [hn, and_comm, and_assoc]
  · next h => simpa using h type address value

theorem unbox?_eq_some : r.unbox? id = some (value, type) ↔
    r.op? id = some (.unbox type) ∧ r.children id = [value] := by
  rw [shape_iff, unbox?]
  split
  · next hn => simp [hn, and_comm]
  · next h => simpa using h type value

theorem newobj?_eq_some {method : MethodDecl} {args : List NodeId} :
    r.newobj? id = some (method, args) ↔ ∃ site : CallSite, r.op? id = some (.call site) ∧
      r.children id = args ∧ site.isNewobj = true ∧ site.method = method := by
  unfold newobj?
  constructor
  · intro h
    split at h
    · next site _ _ _ hn =>
      split_ifs at h with hnew
      cases h
      exact ⟨site, op?_of_node? hn, children_of_node? hn, hnew, rfl⟩
    · cases h
  · rintro ⟨site, hop, hc, hnew, rfl⟩
    obtain ⟨p, b, hn⟩ := shape_iff.mp ⟨hop, hc⟩
    rw [hn]
    exact if_pos hnew

theorem receiverLoad?_eq_some {this : Variable} : r.receiverLoad? id = some this ↔
    ∃ v, r.op? id = some (.ldloc v) ∧ r.var? v = some this ∧ this.isReceiver = true := by
  simp only [receiverLoad?, Option.bind_eq_bind, Option.bind_eq_some_iff]
  constructor
  · rintro ⟨v, hv, x, hx, h⟩
    split_ifs at h with hthis
    cases h
    exact ⟨v, ldloc?_eq_some.mp hv, hx, hthis⟩
  · rintro ⟨v, hv, hx, hthis⟩
    exact ⟨v, ldloc?_eq_some.mpr hv, this, hx, if_pos hthis⟩

/-! ## Trees -/

namespace Holds

theorem unary {op : Op} {t : Tree NodeId} (hop : r.op? id = some op)
    (hc : r.children id = [t.label]) (ht : r.Holds t) : r.Holds (.node id op [t]) :=
  .node hop hc fun _ hu => List.mem_singleton.mp hu ▸ ht

theorem binary {op : Op} {t u : Tree NodeId} (hop : r.op? id = some op)
    (hc : r.children id = [t.label, u.label]) (ht : r.Holds t) (hu : r.Holds u) :
    r.Holds (.node id op [t, u]) := by
  refine .node hop hc fun w hw => ?_
  rcases List.mem_pair.mp hw with rfl | rfl
  · exact ht
  · exact hu

end Holds

/-- The parent of a node with one child has that node as its child. -/
theorem Forest.eq_of_only_child (F : r.Forest) (hp : r.parent? x = some id)
    (hc : r.children id = [y]) : y = x := by
  have hmem := F.listed hp
  rw [hc] at hmem
  exact (List.mem_singleton.mp hmem).symm

/-- The field address of a node is the tree of two levels over it. -/
theorem Forest.ldflda?_parent (F : r.Forest) {t : Tree NodeId} (ht : r.Holds t)
    (hp : r.parent? t.label = some id) :
    r.ldflda? id = some (target, field) ↔
      r.Holds (.node id (.ldflda field) [t]) ∧ target = t.label := by
  rw [ldflda?_eq_some]
  constructor
  · rintro ⟨hop, hc⟩
    obtain rfl := F.eq_of_only_child hp hc
    exact ⟨.unary hop hc ht, rfl⟩
  · rintro ⟨h, rfl⟩
    exact ⟨h.op?, h.children⟩

end CilFold.Routine
