/-
  What the pass for receiver aliases leaves in place. Its edits put loads in the place of loads
  and take out single stores (`Thinned`), so that a variable becomes a candidate by none of them.
-/
import CilFold.Proofs.Framing

namespace CilFold

open Routine PassM

namespace Routine

variable {r s : Routine} {b block d inst k load n p receiver target value : NodeId}
  {this u v var : VarId} {index : Nat} {settings : Settings}

/-- What the edits of the pass have in common: only loads come new into the tree, and only loads
    and the single stores of variables leave it. -/
structure Thinned (r s : Routine) : Prop extends Framed r s where
  head : SameHead r s
  fresh : ∀ k, s.isConnected k = true → r.isConnected k = true ∨ ∃ v, s.op? k = some (.ldloc v)
  gone : ∀ k, r.isConnected k = true → s.isAlive k = false → (∃ v, r.op? k = some (.ldloc v)) ∨
    ∃ v, r.op? k = some (.stloc v) ∧
      ∀ j, r.isConnected j = true → r.op? j = some (.stloc v) → j = k

namespace Thinned

variable (h : Thinned r s)
include h

/-- A node other than a load or a store stays. -/
theorem spared (hk : r.isConnected k = true) {op : Op} (hop : r.op? k = some op)
    (hload : ∀ v, op ≠ .ldloc v) (hstore : ∀ v, op ≠ .stloc v) :
    s.isConnected k = true ∧ s.op? k = some op := by
  have halive : s.isAlive k = true := by
    by_contra hdead
    rcases h.gone k hk (Bool.eq_false_iff.mpr hdead) with ⟨v, hv⟩ | ⟨v, hv, _⟩
    · exact hload v (Option.some.inj (hop.symm.trans hv))
    · exact hstore v (Option.some.inj (hop.symm.trans hv))
  exact ⟨h.connected k hk halive, (h.op k (isAlive_of_isConnected hk) halive).trans hop⟩

theorem known (hk : s.isConnected k = true) {op : Op} (hop : s.op? k = some op)
    (hload : ∀ v, op ≠ .ldloc v) : r.isConnected k = true ∧ r.op? k = some op := by
  rcases h.fresh k hk with hr | ⟨v, hv⟩
  · refine ⟨hr, ?_⟩
    rw [← h.op k (isAlive_of_isConnected hr) (isAlive_of_isConnected hk)]
    exact hop
  · exact absurd (Option.some.inj (hop.symm.trans hv)) (hload v)

/-- A candidate of the later routine was one before. -/
theorem candidate (V : r.Valid) (V' : s.Valid) (hv : s.isCandidate settings v = true) :
    r.isCandidate settings v = true := by
  obtain ⟨x', hx', hrecv, hname, hstores, haddresses⟩ := isCandidate_eq_true.mp hv
  obtain ⟨x, hx, hbare⟩ : ∃ x, r.var? v = some x ∧ x.bare = x'.bare := by
    have hhead := h.head.var? v
    rw [hx', Option.map_some] at hhead
    exact Option.map_eq_some_iff.mp hhead.symm
  have hrecv' : x.isReceiver = false := (congrArg Variable.isReceiver hbare).trans hrecv
  have hname' : x.bare.name = x'.bare.name := congrArg Variable.name hbare
  -- the one store was there before, and no other was
  obtain ⟨only, honly⟩ := List.length_eq_one_iff.mp hstores
  obtain ⟨hop, hconn⟩ := (V'.mem_stores_iff hx').mp (honly ▸ List.mem_singleton_self only)
  obtain ⟨hconn', hop'⟩ := h.known hconn hop (fun _ => nofun)
  have hall : ∀ k ∈ x.stores, k = only := by
    intro k hk
    obtain ⟨hkop, hkconn⟩ := (V.mem_stores_iff hx).mp hk
    cases hs : s.isAlive k with
    | true =>
      have hmem : k ∈ x'.stores := (V'.mem_stores_iff hx').mpr
        ⟨(h.op k (isAlive_of_isConnected hkconn) hs).trans hkop, h.connected k hkconn hs⟩
      rw [honly] at hmem
      exact List.mem_singleton.mp hmem
    | false =>
      rcases h.gone k hkconn hs with ⟨_, hload⟩ | ⟨w, hstore, hsole⟩
      · cases hkop.symm.trans hload
      · cases hkop.symm.trans hstore
        exact (hsole only hconn' hop').symm
  have hstores' : x.stores = [only] := by
    refine List.perm_singleton.mp ((List.perm_ext_iff_of_nodup (V.uses v x hx .store).1
      (List.nodup_singleton only)).mpr fun k => ?_)
    rw [List.mem_singleton]
    refine ⟨hall k, ?_⟩
    rintro rfl
    exact (V.mem_stores_iff hx).mpr ⟨hop', hconn'⟩
  have haddresses' : x.addresses = [] := by
    refine List.eq_nil_iff_forall_not_mem.mpr fun k hk => ?_
    obtain ⟨hkop, hkconn⟩ := (V.mem_addresses_iff hx).mp hk
    obtain ⟨hkconn', hkop'⟩ := h.spared hkconn hkop (fun _ => nofun) (fun _ => nofun)
    have hmem : k ∈ x'.addresses := (V'.mem_addresses_iff hx').mpr ⟨hkop', hkconn'⟩
    rw [haddresses] at hmem
    cases hmem
  refine isCandidate_eq_true.mpr
    ⟨x, hx, hrecv', (congrArg _ hname').trans hname, ?_, haddresses'⟩
  rw [hstores']
  rfl

end Thinned

/-- The uses of all variables but that of the new load. -/
theorem Grafted.use?_iff (G : Grafted r load p (.node n (.ldloc this) []) s) (F : r.Forest)
    (hop : r.op? load = some (.ldloc var)) {kind : UseKind} (hv : v ≠ this) :
    s.use? k = some (kind, v) ↔ r.use? k = some (kind, v) ∧ k ≠ load := by
  cases hk : r.isAlive k with
  | true =>
    have hbelow : r.encloses load k = true ↔ k = load := by
      rw [F.encloses_iff]
      refine ⟨F.eq_of_above_leaf (F.children_of_ldloc hop), ?_⟩
      rintro rfl
      exact Above.refl r k
    rw [(G.views k hk).use?]
    split_ifs with henc
    · exact ⟨fun h => (nomatch h), fun h => absurd (hbelow.mp henc) h.2⟩
    · exact (and_iff_left (hbelow.not.mp henc)).symm
  | false =>
    constructor
    · intro huse
      obtain ⟨m, hm, hc, _⟩ := use?_eq_some huse
      have hnew : k ∈ (Tree.node n (Op.ldloc this) []).labels :=
        (G.only k (isAlive_of_node? hm)).resolve_left (Bool.eq_false_iff.mp hk)
      obtain rfl : k = n := by simpa [Tree.mem_labels_node] using hnew
      cases huse.symm.trans (use?_eq_of_op? G.new.op? ((isConnected_of_node? hm).trans hc))
      exact absurd rfl hv
    · rintro ⟨huse, _⟩
      obtain ⟨m, hm, _⟩ := use?_eq_some huse
      rw [isAlive_of_node? hm] at hk
      cases hk

theorem Grafted.thinned (G : Grafted r load p (.node n (.ldloc u) []) s) (V : r.Valid)
    (hop : r.op? load = some (.ldloc v)) : Thinned r s := by
  have F := V.forest
  have hleaf := F.children_of_ldloc hop
  have hframed := G.framed V (.leaf hop hleaf) rfl (by simp [Op.isBlock, Op.isContainer])
    (by simp [Op.isBlock, Op.isContainer])
  refine ⟨hframed, G.head, fun k hk => ?_, fun k hk hs => .inl ?_⟩
  · refine (G.isConnected_cases F hk).imp_right fun hnew => ⟨u, ?_⟩
    rcases Tree.mem_labels_node.mp hnew with rfl | ⟨_, hnil, _⟩
    · exact G.new.op?
    · cases hnil
  · have habove : r.Above load k := by
      by_contra hnot
      rw [(G.isAlive_iff F (isAlive_of_isConnected hk)).mpr hnot] at hs
      cases hs
    exact ⟨v, F.eq_of_above_leaf hleaf habove ▸ hop⟩

theorem Thinned.deleteAt (V : r.Valid) (hb : r.isBlock block = true)
    (hi : (r.children block)[index]? = some inst)
    (hstore : r.Holds (.node inst (.stloc var) [.node receiver (.ldloc this) []]))
    (honly : ∀ j, r.isConnected j = true → r.op? j = some (.stloc var) → j = inst) :
    Thinned r (r.deleteAt block index inst) := by
  have F := V.forest
  have hframed := Framed.deleteAt V hb hi hstore rfl (by simp [Op.isBlock, Op.isContainer])
  refine ⟨hframed, sameHead_deleteAt r block index inst,
    fun k hk => .inl ((Trimmed.deleteAt F hi).joined k hk), fun k hk hs => ?_⟩
  have henc : r.encloses inst k = true := by
    by_contra hnot
    rw [(F.isAlive_deleteAt hi).mpr ⟨isAlive_of_isConnected hk, hnot⟩] at hs
    cases hs
  have hbelow : k = inst ∨ k = receiver := by
    have hmem := (F.mem_labels hstore).mpr (F.encloses_iff.mp henc)
    simpa [Tree.mem_labels_node] using hmem
  rcases hbelow with rfl | rfl
  · exact .inr ⟨var, hstore.op?, honly⟩
  · exact .inl ⟨this, (hstore.operand (List.mem_singleton_self _)).op?⟩

theorem Movable.thinned (M : r.Movable block target index d value load p) (V : r.Valid) :
    Thinned r (r.move block index d value load p) := by
  obtain ⟨x, hload⟩ := M.loads
  obtain ⟨y, hstore⟩ := M.store
  refine ⟨M.framed V, Movable.sameHead_move _ _ _ _ _ _ _,
    fun k hk => .inl ((Trimmed.move V M).joined k hk), fun k hk hs => ?_⟩
  have hgone : k = d ∨ k = load := by
    by_contra hnot
    obtain ⟨op, hop⟩ := exists_op?_of_isAlive (isAlive_of_isConnected hk)
    have halive := isAlive_of_op? ((M.views_move V.forest k).op.trans ((if_neg hnot).trans hop))
    rw [halive] at hs
    cases hs
  rcases hgone with rfl | rfl
  · exact .inr ⟨y, hstore, fun j hj hjop => M.only y j hstore hjop hj⟩
  · exact .inl ⟨x, hload⟩

end Routine

end CilFold
