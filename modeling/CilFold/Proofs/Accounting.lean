/-
  The log accounts for the edits. If containers are instructions and nothing else, no reported
  change takes a block out of the tree or brings one in; then the blocks lose one instruction
  with each event of a removal or of an inlined value, and keep their number with all others
  (`Reported.accounts`). So the instructions that are missing after a pass are as many as the
  events of these two kinds, and where there is no event nothing has changed.
-/
import CilFold.Proofs.Footprint
import CilFold.Proofs.NormalForm

namespace CilFold

/-- Parts of the same lengths have the same length together. -/
theorem length_flatMap_congr {α β : Type} {f g : α → List β} {l : List α}
    (h : ∀ a ∈ l, (f a).length = (g a).length) :
    (l.flatMap f).length = (l.flatMap g).length := by
  rw [List.length_flatMap, List.length_flatMap, List.map_congr_left h]

namespace EventLog

theorem count_cons (e : Event) (es : List Event) (kind : EventKind) :
    count ⟨e :: es⟩ kind = count ⟨es⟩ kind + if e.kind = kind then 1 else 0 := by
  simp only [count, ofKind, ← List.countP_eq_length_filter, List.countP_cons, beq_iff_eq]

end EventLog

namespace Routine

variable {r s : Routine} {kind : EventKind} {es : List Event} {b block inst : NodeId}
  {index : Nat} {id p : NodeId} {t u : Tree NodeId}

/-! ## Counting instructions -/

/-- The blocks of the tree. -/
def treeBlocks (r : Routine) : List NodeId :=
  r.slots.filter fun b => r.isConnected b && r.isBlock b

/-- The number of instructions in the blocks of the tree. -/
def instructionCount (r : Routine) : Nat := (r.treeBlocks.flatMap r.instructions).length

theorem mem_treeBlocks : b ∈ r.treeBlocks ↔ r.isConnected b = true ∧ r.isBlock b = true := by
  rw [treeBlocks, List.mem_filter, Bool.and_eq_true, and_iff_right_iff_imp]
  rintro ⟨hc, _⟩
  obtain ⟨n, hn, _⟩ := exists_node?_of_isConnected hc
  exact mem_slots_of_node? hn

theorem nodup_treeBlocks (r : Routine) : r.treeBlocks.Nodup :=
  (List.nodup_range.map fun _ _ h => congrArg NodeId.index h).filter _

namespace Framed

variable (h : Framed r s)
include h

/-- The blocks of the tree are the same before and after. -/
theorem treeBlocks_perm : s.treeBlocks.Perm r.treeBlocks := by
  refine (List.perm_ext_iff_of_nodup s.nodup_treeBlocks r.nodup_treeBlocks).mpr fun b => ?_
  rw [mem_treeBlocks, mem_treeBlocks]
  constructor
  · rintro ⟨hc, hb⟩
    obtain ⟨hr, hop⟩ := h.op_old hc (isFrame_of_isBlock hb)
    exact ⟨hr, (isBlock_congr hop).trans hb⟩
  · rintro ⟨hc, hb⟩
    exact h.isBlock hc hb

theorem instructionCount_eq (hsame : ∀ b, r.isConnected b = true → r.isBlock b = true →
    (s.instructions b).length = (r.instructions b).length) :
    s.instructionCount = r.instructionCount := by
  rw [instructionCount, (h.treeBlocks_perm.flatMap_right _).length_eq, instructionCount]
  refine length_flatMap_congr fun b hb => ?_
  exact hsame b (mem_treeBlocks.mp hb).1 (mem_treeBlocks.mp hb).2

/-- One block of the tree has lost an instruction. -/
theorem instructionCount_succ (hc : r.isConnected block = true) (hb : r.isBlock block = true)
    (hless : (s.instructions block).length + 1 = (r.instructions block).length)
    (hsame : ∀ b, r.isConnected b = true → r.isBlock b = true → b ≠ block →
      (s.instructions b).length = (r.instructions b).length) :
    s.instructionCount + 1 = r.instructionCount := by
  have hsplit := List.perm_cons_erase (mem_treeBlocks.mpr ⟨hc, hb⟩)
  have hrest : ((r.treeBlocks.erase block).flatMap s.instructions).length =
      ((r.treeBlocks.erase block).flatMap r.instructions).length := by
    refine length_flatMap_congr fun b hmem => ?_
    obtain ⟨hne, hmem⟩ := r.nodup_treeBlocks.mem_erase_iff.mp hmem
    exact hsame b (mem_treeBlocks.mp hmem).1 (mem_treeBlocks.mp hmem).2 hne
  rw [instructionCount, ((h.treeBlocks_perm.trans hsplit).flatMap_right _).length_eq,
    instructionCount, (hsplit.flatMap_right _).length_eq, List.flatMap_cons, List.flatMap_cons,
    List.length_append, List.length_append, hrest, ← hless]
  omega

end Framed

/-! ## Reported changes -/

theorem Orderly.plain_of_supplies (O : r.Orderly) (V : r.Valid) (hu : r.Supplies u) :
    u.Plain := by
  rcases hu with hu | ⟨x, hx, hc, hb, hcontainer, hbare⟩
  · exact hu
  · rw [← Tree.plain_bare, hbare, Tree.plain_bare]
    exact O.plain V hx hc (Bool.or_eq_false_iff.mpr ⟨hb, hcontainer⟩)

/-- A change is accounted for by an event of a kind: blocks and containers stay where they are,
    and an instruction is missing if and only if the kind says so. -/
structure Accounts (r : Routine) (kind : EventKind) (s : Routine) : Prop where
  framed : Framed r s
  count : s.instructionCount + ((if kind = .instructionRemoved then 1 else 0) +
    if kind = .valueInlined then 1 else 0) = r.instructionCount

theorem Grafted.accounts (G : Grafted r id p u s) (V : r.Valid) (O : r.Orderly)
    (hc : r.isConnected id = true) (hf : r.isFrame id = false) (hu : r.Supplies u)
    (hkind : kind.isReplacement = true) : Accounts r kind s := by
  have F := V.forest
  obtain ⟨x, hx, rfl⟩ := F.exists_holds (isAlive_of_isConnected hc)
  have hplain := O.plain V hx hc hf
  have hframed := G.framed V hx rfl hplain (O.plain_of_supplies V hu)
  have hcount : s.instructionCount = r.instructionCount := by
    refine hframed.instructionCount_eq fun b _ hb => ?_
    have hout := F.not_above_of_plain hx hplain (isFrame_of_isBlock hb)
    rw [G.instructions_eq_map F hb hout, List.length_map]
  -- a replacement is of neither of the two kinds
  refine ⟨hframed, ?_⟩
  cases kind <;> first | exact hcount | cases hkind

theorem Accounts.deleteAt (V : r.Valid) (O : r.Orderly) (hc : r.isConnected block = true)
    (hi : (r.instructions block)[index]? = some inst) (hinst : r.isContainer inst = false) :
    Accounts r .instructionRemoved (r.deleteAt block index inst) := by
  have F := V.forest
  obtain ⟨hb, hi'⟩ := getElem?_instructions hi
  have hp : r.parent? inst = some block := F.parent?_of_mem (List.mem_of_getElem? hi')
  have hconn : r.isConnected inst = true := (F.shared hp).trans hc
  have hinstBlock : r.isBlock inst = false :=
    (V.inPlace inst block hc hp).trans (not_container_of_block hb)
  obtain ⟨x, hx, rfl⟩ := F.exists_holds (isAlive_of_parent? hp)
  have hplain := O.plain V hx hconn (Bool.or_eq_false_iff.mpr ⟨hinstBlock, hinst⟩)
  have hframed := Framed.deleteAt V hb hi' hx rfl hplain
  refine ⟨hframed, hframed.instructionCount_succ hc hb ?_ fun b hbc hbb hne => ?_⟩
  · rw [instructions, if_pos (Vacated.isBlock_deleteAt V hi), instructions, if_pos hb]
    exact Vacated.length_deleteAt V hi
  · have hstays : ¬ r.encloses x.label b = true := by
      rw [F.encloses_iff]
      exact F.not_above_of_plain hx hplain (isFrame_of_isBlock hbb)
    rw [instructions, if_pos (hframed.isBlock hbc hbb).2, instructions, if_pos hbb,
      (views_deleteAt F hp index b).children, if_neg hstays, if_neg hne]

theorem Movable.accounts {d load target value : NodeId}
    (M : r.Movable block target index d value load p) (V : r.Valid) :
    Accounts r .valueInlined (r.move block index d value load p) := by
  have F := V.forest
  have hframed := M.framed V
  refine ⟨hframed, hframed.instructionCount_succ M.connected M.isBlock ?_ fun b hbc hbb hne => ?_⟩
  · rw [instructions, if_pos (M.isBlock_move F), instructions, if_pos M.isBlock]
    exact M.length_move F
  · obtain ⟨hs, hbs⟩ := hframed.isBlock hbc hbb
    rw [instructions, if_pos hbs, instructions, if_pos hbb,
      M.children_move_of_ne F hbb hne (isAlive_of_isConnected hs)]

theorem Reported.accounts (h : Reported r kind s) (V : r.Valid) (O : r.Orderly) :
    Accounts r kind s := by
  cases h with
  | retyped _ _ =>
    exact ⟨Framed.retype _ _, (Framed.retype _ _).instructionCount_eq fun _ _ _ => rfl⟩
  | replaced hkind G hc hb hcontainer hu =>
    exact G.accounts V O hc (Bool.or_eq_false_iff.mpr ⟨hb, hcontainer⟩) hu hkind
  | removed hc hi hinst => exact .deleteAt V O hc hi hinst
  | inlined M => exact M.accounts V

/-- Over any number of changes, the missing instructions are as many as the events of the two
    kinds. -/
theorem Reports.instructionCount (h : Reports r es s) (V : r.Valid) (O : r.Orderly) :
    s.instructionCount + (EventLog.count ⟨es⟩ .instructionRemoved +
      EventLog.count ⟨es⟩ .valueInlined) = r.instructionCount := by
  induction h with
  | done => rfl
  | step hchange _ _ ih =>
    have hstep := hchange.accounts V O
    have hrest := ih (hchange.valid V) (O.framed hstep.framed)
    rw [EventLog.count_cons, EventLog.count_cons, ← hstep.count, ← hrest]
    omega

end Routine

/-! ## Passes -/

namespace Pass

open Routine PassM

variable {pass : Pass} {w : Work}

/-- On a valid routine whose containers are the body and instructions of blocks, the events that
    a pass records account for what it does: the blocks of the tree have lost as many
    instructions as there are events of a removed instruction or of an inlined value, and if
    there is no event, the routine is unchanged. -/
theorem events_account (hreach : Reachable w.routine) (hvalid : w.routine.validate = .ok ())
    (horderly : w.routine.Orderly) (hpass : pass ∈ all) (settings : Settings) :
    ∃ w' es, pass.run { settings, inliner := Inliner.singleUse } w = .ok () w' ∧
      w'.log.events = w.log.events ++ es ∧
      w'.routine.instructionCount + (EventLog.count ⟨es⟩ .instructionRemoved +
        EventLog.count ⟨es⟩ .valueInlined) = w.routine.instructionCount ∧
      (es = [] → w'.routine = w.routine) := by
  have V := (Routine.valid_iff hreach).mp hvalid
  obtain ⟨_, w', hrun, ⟨es, hevents, hreports⟩, _⟩ :
    Ends (pass.run { settings, inliner := Inliner.singleUse }) (w.on w.routine) _ :=
    run_reports hpass V
  have hreports : Reports w.routine es w'.routine := hreports
  refine ⟨w', es, hrun, hevents, hreports.instructionCount V horderly, ?_⟩
  rintro rfl
  exact hreports.eq_of_nil

set_option maxRecDepth 8000 in
/-- Of three copies one is a self-store; it goes, another one is folded into the last, and that
    one goes as well. -/
theorem events_of_three_copies :
    SelfStore.Sample.routine.instructionCount = 3 ∧ SelfStore.Sample.routine.Orderly ∧
    ∃ w' es, SelfStore.pass.run { settings := {}, inliner := Inliner.singleUse }
        { routine := SelfStore.Sample.routine } = .ok () w' ∧
      w'.log.events = es ∧ w'.routine.instructionCount = 0 ∧
      EventLog.count ⟨es⟩ .instructionRemoved = 2 ∧ EventLog.count ⟨es⟩ .valueInlined = 1 := by
  have hreach : Reachable SelfStore.Sample.routine :=
    (Reachable.empty _ _).after SelfStore.Sample.calls
  have horderly : SelfStore.Sample.routine.Orderly := by decide +kernel
  have hpass : SelfStore.pass ∈ all := List.mem_cons_of_mem _ List.mem_cons_self
  obtain ⟨w', es, hrun, hevents, hcount, _⟩ :=
    events_account (w := { routine := SelfStore.Sample.routine }) hreach (by decide +kernel)
      horderly hpass {}
  have hlog :
      let run := SelfStore.pass.run { settings := {}, inliner := Inliner.singleUse }
      let log := (run.after { routine := SelfStore.Sample.routine }).log
      log.count .instructionRemoved = 2 ∧ log.count .valueInlined = 1 := by decide +kernel
  have hthree : SelfStore.Sample.routine.instructionCount = 3 := by decide +kernel
  have hevents : w'.log.events = es := hevents
  simp only [after_of_ok hrun] at hlog
  obtain ⟨hremoved, hinlined⟩ : EventLog.count ⟨es⟩ .instructionRemoved = 2 ∧
    EventLog.count ⟨es⟩ .valueInlined = 1 := hevents ▸ hlog
  refine ⟨hthree, horderly, w', es, hrun, hevents, ?_, hremoved, hinlined⟩
  rw [hremoved, hinlined, hthree] at hcount
  omega

end Pass

end CilFold
