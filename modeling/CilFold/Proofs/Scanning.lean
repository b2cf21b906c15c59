/-
  Scans of blocks end. A visit has to leave fewer instructions to go than it found; the length
  of the block then bounds the number of visits, and the scan comes to its end without a
  refusal. An invariant of the visits may speak of the index reached.
-/
import CilFold.Proofs.Inlining
import CilFold.Proofs.Graft

namespace CilFold

open Routine

namespace PassM

variable {w : Work} {r : Routine} {block : NodeId}

/-- A visit that keeps an invariant and leaves fewer instructions to go. -/
def Advances (block : NodeId) (visit : Nat → NodeId → PassM Nat) (I : Nat → Work → Prop) : Prop :=
  ∀ (w : Work) (r : Routine) (index : Nat) (inst : NodeId), I index (w.on r) →
    (r.instructions block)[index]? = some inst →
    Ends (visit index inst) (w.on r) fun next w' => I next w' ∧
      (w'.routine.instructions block).length - next < (r.instructions block).length - index

theorem scanFrom_ends {visit : Nat → NodeId → PassM Nat} {I : Nat → Work → Prop}
    (hvisit : Advances block visit I) {steps index : Nat} (h : I index (w.on r))
    (hsteps : (r.instructions block).length - index ≤ steps) :
    Ends (scanFrom block visit steps index) (w.on r) fun _ w' =>
      ∃ last, I last w' ∧ (w'.routine.instructions block).length ≤ last := by
  induction steps generalizing w r index with
  | zero =>
    have hle : (r.instructions block).length ≤ index := by omega
    refine Ends.bind (Ends.routine ?_)
    rw [if_neg (Nat.not_lt.mpr hle)]
    exact Ends.pure ⟨index, h, hle⟩
  | succ steps ih =>
    refine Ends.bind (Ends.routine ?_)
    cases hi : (r.instructions block)[index]? with
    | none => exact Ends.pure ⟨index, h, List.getElem?_eq_none_iff.mp hi⟩
    | some inst =>
      refine (hvisit w r index inst h hi).andThen fun next w' s ⟨hI, hlt⟩ => ?_
      have hless : (s.instructions block).length - next < (r.instructions block).length - index :=
        hlt
      exact ih hI (by omega)

theorem scan_ends {visit : Nat → NodeId → PassM Nat} {I : Nat → Work → Prop}
    (hvisit : Advances block visit I) (h : I 0 (w.on r)) :
    Ends (scan block visit) (w.on r) fun _ w' =>
      ∃ last, I last w' ∧ (w'.routine.instructions block).length ≤ last :=
  Ends.bind (Ends.routine (scanFrom_ends hvisit h (Nat.le_refl _)))

theorem scanControlFlow_ends {visit : NodeId → Nat → NodeId → PassM Nat} {I : Work → Prop}
    (hscan : ∀ (w : Work) (r : Routine) (block : NodeId), I (w.on r) → r.isConnected block = true →
      r.blockKind? block = some .controlFlow → Ends (scan block (visit block)) (w.on r) fun _ => I)
    (h : I (w.on r)) : Ends (scanControlFlow visit) (w.on r) fun _ => I := by
  refine Ends.bind (Ends.routine ?_)
  refine Ends.forM (I := fun _ => I) (fun container _ w r hI => ?_) h
  refine Ends.bind (Ends.routine ?_)
  refine Ends.forM (I := fun _ => I) (fun block _ w r hI => ?_) hI
  refine Ends.bind (Ends.routine ?_)
  split
  · next hb =>
    rw [Bool.and_eq_true, beq_iff_eq] at hb
    exact hscan w r block hI hb.1 hb.2
  · exact Ends.pure hI

theorem scanEntries_ends {visit : NodeId → Nat → NodeId → PassM Nat} {I : Work → Prop}
    (hscan : ∀ (w : Work) (r : Routine) (container block : NodeId), I (w.on r) →
      r.isConnected container = true → r.entry? container = some block →
      Ends (scan block (visit block)) (w.on r) fun _ => I)
    (h : I (w.on r)) : Ends (scanEntries visit) (w.on r) fun _ => I := by
  refine Ends.bind (Ends.routine ?_)
  refine Ends.forM (I := fun _ => I) (fun container _ w r hI => ?_) h
  refine Ends.bind (Ends.routine ?_)
  split
  · next hc =>
    split
    · next block hb => exact hscan w r container block hI hc hb
    · exact Ends.pure hI
  · exact Ends.pure hI

end PassM

namespace Routine

variable {r : Routine} {b block container : NodeId}

/-- The entry block of a connected container is connected. -/
theorem Forest.isConnected_entry (F : r.Forest) (hc : r.isConnected container = true)
    (hb : r.entry? container = some block) : r.isConnected block = true := by
  have hmem : block ∈ r.blocks container := List.mem_of_mem_head? hb
  unfold blocks at hmem
  split_ifs at hmem
  · exact (F.shared (F.parent?_of_mem hmem)).trans hc
  · cases hmem

/-- A block of the tree is in a container of the tree. -/
theorem Valid.exists_container (V : r.Valid) (hconn : r.isConnected b = true)
    (hb : r.isBlock b = true) : ∃ c ∈ r.containers, r.parent? b = some c ∧ b ∈ r.blocks c := by
  have F := V.forest
  obtain ⟨c, hp⟩ := F.exists_parent hconn (not_container_of_block hb)
  have hc : r.isConnected c = true := (F.shared hp).symm.trans hconn
  have hcontainer : r.isContainer c = true := (V.inPlace b c hc hp).symm.trans hb
  refine ⟨c, List.mem_filter.mpr ⟨?_, hcontainer⟩, hp, ?_⟩
  · exact (F.mem_preorder (isAlive_of_isConnected F.isConnected_body)).mpr
      (F.isConnected_iff_above.mp hc)
  · rw [blocks, if_pos hcontainer]
    exact F.mem_children_iff.mpr hp

end Routine

/-- A pass has left a valid routine, and the log shows its edits. -/
structure Sane (w w' : Work) : Prop where
  valid : w'.routine.Valid
  logged : Logged w w'

/-- The block of a scan is connected as long as it is alive. -/
structure Scanned (w : Work) (block : NodeId) (w' : Work) : Prop extends Sane w w' where
  known : block.index < w'.routine.nodes.size
  stays : w'.routine.isAlive block = true → w'.routine.isConnected block = true

namespace Scanned

variable {w₀ w w' : Work} {r s : Routine} {block : NodeId}

theorem start (h : Sane w₀ (w.on r)) (hc : r.isConnected block = true) :
    Scanned w₀ block (w.on r) :=
  ⟨h, index_lt_of_isAlive (isAlive_of_isConnected hc), fun _ => hc⟩

/-- Edits that keep what there was keep the block of a scan. -/
theorem step (h : Scanned w₀ block (w.on r)) (V : s.Valid) (hkept : Kept r s)
    (hlog : Logged (w.on r) (w'.on s)) : Scanned w₀ block (w'.on s) := by
  refine ⟨⟨V, h.logged.trans hlog⟩, Nat.lt_of_lt_of_le h.known hkept.size, fun hs => ?_⟩
  have hr : r.isAlive block = true := hkept.alive block h.known hs
  exact hkept.connected block (h.stays hr) hs

end Scanned

/-- While a visit works on other places of the tree, the instruction it is at stays as it is,
    and the block has as many instructions as before. -/
structure Standing (w₀ : Work) (block : NodeId) (index length : Nat) (t : Tree NodeId) (w : Work) :
    Prop extends Scanned w₀ block w where
  at_index : (w.routine.instructions block)[index]? = some t.label
  length_eq : (w.routine.instructions block).length = length
  holds : w.routine.Holds t

/-- A graft in a place that has neither the instruction nor the block in it. -/
theorem Standing.graft {w₀ w w' : Work} {r s : Routine} {block id p : NodeId} {index length : Nat}
    {t u x : Tree NodeId} (h : Standing w₀ block index length t (w.on r)) (G : Grafted r id p u s)
    (hlog : Logged (w.on r) (w'.on s)) (hx : r.Holds x) (hl : x.label = id) (hid : id ∉ t.labels)
    (htop : t.label ∉ x.labels) (hblock : block ∉ x.labels) :
    Standing w₀ block index length t (w'.on s) := by
  have V : r.Valid := h.valid
  have F := V.forest
  have hi : (r.instructions block)[index]? = some t.label := h.at_index
  have hbelow : ¬ r.Above id block := by
    rw [← hl, ← F.mem_labels hx]
    exact hblock
  have hne : t.label ≠ id := fun he => hid (he ▸ t.label_mem_labels)
  obtain ⟨_, hi', hlen⟩ := G.instructions F hbelow hne hi
  exact ⟨h.step G.valid G.kept hlog, hi', hlen.trans h.length_eq,
    G.holds_other F hx hl h.holds hid htop⟩

end CilFold
