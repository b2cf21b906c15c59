/-
  What the events of a pass report. `Reported kind r s` says which change of a routine stands
  behind an event of a kind: a variable takes the type of a receiver, a fresh tree comes into
  the place of an operand or an instruction, an instruction goes, or a value moves into the
  place of its load.

  `Logged` compares the work before and after. The log has grown by events, and the changes that
  these report, one after the other, lead from the one routine to the other. What these changes
  keep is therefore kept by every computation that is logged.
-/
import CilFold.Proofs.Graft
import CilFold.Proofs.Move

namespace CilFold

/-- Whether the event reports that one tree has come into the place of another. -/
def EventKind.isReplacement : EventKind → Bool
  | wrapperCollapsed | fieldReferenceFolded | storeReplaced | loadReplaced => true
  | _ => false

theorem EventKind.isEdit_of_isReplacement {kind : EventKind} (h : kind.isReplacement = true) :
    kind.isEdit = true := by
  cases kind <;> first | rfl | cases h

namespace Routine

variable {r s t : Routine} {kind : EventKind} {u : Tree NodeId} {es es' : List Event}

/-- The tree has neither blocks nor containers, or it is a copy of what stands below an operand
    or an instruction of the routine's tree. -/
def Supplies (r : Routine) (u : Tree NodeId) : Prop :=
  u.Plain ∨ ∃ x, r.Holds x ∧ r.isConnected x.label = true ∧ r.isBlock x.label = false ∧
    r.isContainer x.label = false ∧ u.bare = x.bare

/-- The change of a routine that an event of a kind reports. -/
inductive Reported (r : Routine) : EventKind → Routine → Prop where
  | retyped {v this : VarId} {x : Variable} : r.var? this = some x → x.isReceiver = true →
      Reported r .variableRetyped (r.modifyVariable v fun y => { y with type := x.type })
  | replaced {kind : EventKind} {id p : NodeId} {u : Tree NodeId} {s : Routine} :
      kind.isReplacement = true → Grafted r id p u s → r.isConnected id = true →
      r.isBlock id = false → r.isContainer id = false → r.Supplies u → Reported r kind s
  | removed {block inst : NodeId} {index : Nat} : r.isConnected block = true →
      (r.instructions block)[index]? = some inst → r.isContainer inst = false →
      Reported r .instructionRemoved (r.deleteAt block index inst)
  | inlined {block target d value load p : NodeId} {index : Nat} :
      r.Movable block target index d value load p →
      Reported r .valueInlined (r.move block index d value load p)

namespace Reported

theorem token (h : Reported r kind s) : s.token = r.token := by
  cases h with
  | retyped _ _ => rfl
  | replaced _ G _ _ _ _ => exact G.head.token
  | removed _ _ _ => exact (sameHead_deleteAt r _ _ _).token
  | inlined _ => exact (Movable.sameHead_move r _ _ _ _ _ _).token

theorem isEdit (h : Reported r kind s) : kind.isEdit = true := by
  cases h with
  | replaced hkind _ _ _ _ _ => exact EventKind.isEdit_of_isReplacement hkind
  | _ => rfl

end Reported

/-- The changes that some events report lead from one routine to another. -/
inductive Reports : Routine → List Event → Routine → Prop where
  | done {r : Routine} : Reports r [] r
  | step {r s t : Routine} {e : Event} {es : List Event} : Reported r e.kind s →
      e.method = some r.token → Reports s es t → Reports r (e :: es) t

namespace Reports

theorem trans (h : Reports r es s) (h' : Reports s es' t) : Reports r (es ++ es') t := by
  induction h with
  | done => exact h'
  | step hchange hmethod _ ih => exact .step hchange hmethod (ih h')

/-- Without an event there is no change. -/
theorem eq_of_nil (h : Reports r [] s) : s = r := by
  cases h with
  | done => rfl

/-- All events report edits of the routine. -/
theorem events (h : Reports r es s) :
    ∀ e ∈ es, e.kind.isEdit = true ∧ e.method = some r.token := by
  induction h with
  | done => exact fun _ he => absurd he List.not_mem_nil
  | step hchange hmethod _ ih =>
    rw [hchange.token] at ih
    exact List.forall_mem_cons.mpr ⟨⟨hchange.isEdit, hmethod⟩, ih⟩

end Reports

end Routine

open Routine

/-- The log has grown by events that report what has become of the routine. -/
def Logged (w w' : Work) : Prop :=
  ∃ es, w'.log.events = w.log.events ++ es ∧ Reports w.routine es w'.routine

namespace Logged

variable {w w' w'' : Work} {r s : Routine} {kind : EventKind} {e : Event}

theorem refl (w : Work) : Logged w w := ⟨[], (List.append_nil _).symm, .done⟩

theorem trans (h : Logged w w') (h' : Logged w' w'') : Logged w w'' := by
  obtain ⟨es, hes, hreports⟩ := h
  obtain ⟨es', hes', hreports'⟩ := h'
  exact ⟨es ++ es', by rw [hes', hes, List.append_assoc], hreports.trans hreports'⟩

/-- One event with the change that it reports, in whichever order they come. -/
theorem single (hkind : e.kind = kind) (hmethod : e.method = some r.token)
    (h : Reported r kind s) : Logged (w.on r) ((w.noted e).on s) :=
  ⟨[e], rfl, .step (hkind ▸ h) hmethod .done⟩

end Logged

end CilFold
