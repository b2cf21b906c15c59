/-
  The fold of a capture object with an inliner that leaves everything as it is, for use by
  others. What it makes of the tree is `Capture.folded`; a caller may in addition follow a
  property of its own through the replacements (`Capture.Keeps`), over the construction, and
  through the removals together with the index at which the scan goes on.
-/
import CilFold.Proofs.CaptureEffect

namespace CilFold

open Routine PassM

namespace CapturedReceiver

variable {w : Work} {r s : Routine} {block inst : NodeId} {index : Nat} {c : Capture}
  {ctx : Context} {goal : Tree (Option NodeId)}

/-- Where a scan goes on when an instruction is gone and nothing was inlined. -/
def resume (block : NodeId) (placed : PlacedStore) (next : Nat) : Nat :=
  if placed.owner = block ∧ placed.position < next then next - 1 else next

theorem removal_ends {placed : PlacedStore} {next : Nat} {Q : Nat → Work → Prop}
    (hidle : ∀ block index options w, ctx.inliner block index options w = .ok 0 w)
    (hb : s.isBlock placed.owner = true)
    (hi : (s.children placed.owner)[placed.position]? = some placed.store)
    (hQ : ∀ w' : Work, Q (resume block placed next)
      (w'.on (s.deleteAt placed.owner placed.position placed.store))) :
    Ends (do
        PassM.noteNode name .instructionRemoved placed.position placed.store
        let inlined ← ctx.vacate placed.owner placed.position
        if placed.owner == block then rewind next placed.position inlined else pure next)
      (w.on s) Q := by
  refine Ends.bind (Ends.noteNode fun e _ _ => ?_)
  refine Ends.bind (Ends.bind (Ends.edit (Edit.remove_ok hb hi) ⟨0, _, hidle _ _ _ _, ?_⟩))
  have hQ := hQ (w.noted e)
  unfold resume at hQ
  split
  · next ho =>
    rw [beq_iff_eq] at ho
    show Ends (rewind next placed.position 0) _ Q
    unfold rewind
    by_cases hbehind : placed.position < next
    · rw [if_pos ⟨ho, hbehind⟩] at hQ
      rw [if_pos hbehind]
      exact Ends.stepBack (by omega) hQ
    · rw [if_neg fun h => hbehind h.2] at hQ
      rw [if_neg hbehind]
      split_ifs
      · have hnext : placed.position - 0 = next := by omega
        exact hnext ▸ Ends.pure hQ
      · exact Ends.pure hQ
  · next ho =>
    rw [if_neg fun h => ho (beq_iff_eq.mpr h.1)] at hQ
    exact Ends.pure hQ

/-- The removals keep what each of them keeps. -/
theorem removeForwards_keeps {J : Nat → Routine → Prop} {stores : List NodeId} {next : Nat}
    (hidle : ∀ block index options w, ctx.inliner block index options w = .ok 0 w)
    (hstep : ∀ (next : Nat) (s : Routine) (placed : PlacedStore) (type : TypeDecl), s.Valid →
      J next s → placed.store ∈ stores → s.isBlock placed.owner = true →
      (s.children placed.owner)[placed.position]? = some placed.store →
      s.op? placed.store = some (.stobj type) →
      J (resume block placed next) (s.deleteAt placed.owner placed.position placed.store))
    (hops : ∀ st ∈ stores, ∃ type, r.op? st = some (.stobj type))
    (h : Pruning r goal stores (w.on s)) (hJ : J next s) :
    Ends (removeForwards ctx block stores.length stores next) (w.on s) fun last w' =>
      J last w'.routine := by
  refine (removeForwards_ends (I := fun left next w => (Pruning r goal left w ∧ left ⊆ stores) ∧
    J next w.routine) (fun left next w s placed h hlast => ?_)
    ⟨⟨h, List.Subset.refl stores⟩, hJ⟩).mono fun _ _ _ ⟨_, ⟨_, hend⟩, _⟩ => hend
  obtain ⟨⟨h, hsub⟩, hJ⟩ := h
  have V : s.Valid := h.valid
  have hkept : Kept r s := h.kept
  obtain ⟨hmem, _, hi⟩ := hkept.lastPlaced h.stores V.forest hlast
  obtain ⟨hb, hi'⟩ := getElem?_instructions hi
  have halive := isAlive_of_parent? (V.forest.parent?_of_mem (List.mem_of_getElem? hi'))
  obtain ⟨type, hop⟩ := hops _ (hsub hmem)
  have hop' := (hkept.op _ (isAlive_of_op? hop) halive).trans hop
  have hkeeps : Ends _ (w.on s) fun last w' => J last w'.routine :=
    removal_ends hidle hb hi' fun _ => hstep next s placed type V hJ (hsub hmem) hb hi' hop'
  refine ((prune_step hidle h hlast).and hkeeps).mono ?_
  rintro last w' s' ⟨hpruning, hJ'⟩
  exact ⟨⟨hpruning, fun st hst => hsub (List.mem_of_mem_erase
    ((dropStore_perm hmem).mem_iff.mp hst))⟩, hJ'⟩

/-- A fold makes of the tree what `Capture.folded` says, and keeps what its parts keep. -/
theorem fold_idle {settings : Settings} {this : VarId} {I : Routine → Prop}
    {J : Nat → Routine → Prop}
    (hidle : ∀ block index options w, ctx.inliner block index options w = .ok 0 w)
    (hkeeps : c.Keeps I) (hretyped : I (c.retyped r)) (V : r.Valid)
    (hblock : r.isConnected block = true) (hi : (r.instructions block)[index]? = some inst)
    (hc : r.capture? settings inst = some c) (hthis : r.op? c.receiver = some (.ldloc this))
    (hconstruct : ∀ q s new site n l, q.Valid → I q →
      (q.instructions block)[index]? = some inst →
      q.Holds (constructionTree c inst new site this) →
      Grafted q inst block (.node n (.stloc c.holder) [.node l (.ldloc this) []]) s →
      (s.instructions block).length = (r.instructions block).length → J (index + 1) s)
    (hremove : ∀ (next : Nat) (s : Routine) (placed : PlacedStore) (type : TypeDecl), s.Valid →
      J next s → placed.store ∈ ((c.retyped r).capturePlan c).forwards.map (·.store) →
      s.isBlock placed.owner = true →
      (s.children placed.owner)[placed.position]? = some placed.store →
      s.op? placed.store = some (.stobj type) →
      J (resume block placed next) (s.deleteAt placed.owner placed.position placed.store)) :
    Ends (fold ctx block index c) (w.on r) fun next w' =>
      (w'.routine.Valid ∧ SameHead (c.retyped r) w'.routine ∧
        r.marked w'.routine w'.routine.body = c.folded inst this (r.tree r.body)) ∧
      J next w'.routine := by
  obtain ⟨_, _, _, _, ⟨x, hx, _⟩, _⟩ := capture?_spec V.forest hc
  have hstart : Scanned (w.on r) block (w.on r) := Scanned.start ⟨V, Logged.refl _⟩ hblock
  have V₁ : (c.retyped r).Valid := V.retype c.holder c.receiverType
  have hx₁ := var?_holder_retyped hx
  have htree : (c.retyped r).tree (c.retyped r).body = r.tree r.body := tree_retyped c V
  have hlength₁ : ((c.retyped r).instructions block).length = (r.instructions block).length := rfl
  have hmarks₁ : ∀ s : Routine, (c.retyped r).marked s = r.marked s := fun _ => rfl
  refine fold_keeps hkeeps hretyped hstart hi hc hthis ?_
  intro w' s q new site n l hq hI hi' ht' G h
  rw [← htree] at h ⊢
  have hJ : J (index + 1) s := hconstruct q s new site n l hq hI hi' ht' G
    (h.length_eq.trans hlength₁)
  simp only [← hmarks₁]
  generalize c.retyped r = r₁ at *
  have hpruning : Pruning r₁ (c.folded inst this (r₁.tree r₁.body))
      ((r₁.capturePlan c).forwards.map (·.store)) (w'.on s) := by
    refine ⟨h.valid, h.kept, h.head, fun st hst => (stores_spec V₁ hx₁ hst).1, ?_⟩
    rw [h.marks, Capture.folded]
    exact Tree.prune_congr fun a _ => any_forwards V₁ hx₁ a
  have hlength : (r₁.capturePlan c).forwards.length =
      ((r₁.capturePlan c).forwards.map (·.store)).length := (List.length_map _).symm
  rw [hlength]
  refine ((removeForwards_prunes hidle hpruning).and (removeForwards_keeps hidle hremove
    (fun st hst => (stores_spec V₁ hx₁ hst).2) hpruning hJ)).mono ?_
  rintro last w'' s' ⟨⟨hvalid, hhead, hmarked⟩, hJ'⟩
  exact ⟨⟨hvalid, hhead, hhead.body ▸ hmarked⟩, hJ'⟩

end CapturedReceiver

end CilFold
