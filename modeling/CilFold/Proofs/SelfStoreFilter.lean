/-
  Without inlining the pass for self-stores is a filter. A removal changes no tree of another
  instruction, so that what is a self-store at the start is one when the scan comes to it, and
  the other way round. The scan of a block has then, at any time, filtered the instructions in
  front of its index and not yet looked at those behind it.
-/
import Mathlib.Logic.Function.Basic
import CilFold.Proofs.NormalForm

namespace CilFold

namespace Routine

variable {r s : Routine} {b block i : NodeId} {t : Tree NodeId}

/-! ## The text of a tree -/

theorem opText_congr (head : SameHead r s) (op : Op) : s.opText op = r.opText op := by
  have hname : ∀ v, s.variableName v = r.variableName v := by
    intro v
    unfold variableName
    rcases head.declared v with ⟨hx, hy⟩ | ⟨x, y, hx, hy, _, hname⟩
    · rw [hx, hy]
    · rw [hx, hy]
      exact hname
  cases op <;> simp only [opText, hname]

theorem renderTo_congr (head : SameHead r s) (depth : Nat) (ht : r.Holds t) (ht' : s.Holds t) :
    s.renderTo depth t.label = r.renderTo depth t.label := by
  induction depth generalizing t with
  | zero => rfl
  | succ depth ih =>
    obtain ⟨n, hn, hnop⟩ := Option.map_eq_some_iff.mp ht.op?
    obtain ⟨m, hm, hmop⟩ := Option.map_eq_some_iff.mp ht'.op?
    have hnc : n.children = t.operands.map Tree.label :=
      (children_of_node? hn).symm.trans ht.children
    have hmc : m.children = t.operands.map Tree.label :=
      (children_of_node? hm).symm.trans ht'.children
    have hparts : (t.operands.map Tree.label).map (s.renderTo depth) =
        (t.operands.map Tree.label).map (r.renderTo depth) := by
      rw [List.map_map, List.map_map]
      exact List.map_congr_left fun u hu => ih (ht.operand hu) (ht'.operand hu)
    rw [renderTo, renderTo, hn, hm]
    simp only [hmop, hnop, hmc, hnc, opText_congr head, hparts]

/-- The text of a node depends on its tree, the names of the variables and the size of the
    arena. -/
theorem render_congr (head : SameHead r s) (hsize : s.nodes.size = r.nodes.size) (ht : r.Holds t)
    (ht' : s.Holds t) : s.render t.label = r.render t.label := by
  rw [render, render, hsize, renderTo_congr head _ ht ht']

/-! ## Instructions that are no containers -/

theorem Orderly.plain_tree (O : r.Orderly) (V : r.Valid) (hconn : r.isConnected b = true)
    (hi : i ∈ r.instructions b) (hc : r.isContainer i = false) : (r.tree i).Plain := by
  have F := V.forest
  obtain ⟨hp, hb⟩ := F.parent?_of_mem_instructions hi
  have hblock : r.isBlock i = false := (V.inPlace i b hconn hp).trans (not_container_of_block hb)
  refine O.plain V (F.holds_tree (isAlive_of_parent? hp)) ?_ ?_
  · rw [label_tree]
    exact (F.shared hp).trans hconn
  · rw [label_tree, isFrame, hblock, hc]
    rfl

end Routine

namespace SelfStore

open Routine PassM

variable {w₀ w : Work} {r s : Routine} {b block i inst : NodeId} {index : Nat} {ctx : Context}
  {settings : Settings} {lists : NodeId → List NodeId} {gone front todo : List NodeId}
  {e : Event}

/-- The self-stores among some instructions. -/
def redundant (r : Routine) (settings : Settings) (insts : List NodeId) : List NodeId :=
  insts.filter fun i => r.isRedundant settings i

/-- The instructions among some that are no self-stores. -/
def needed (r : Routine) (settings : Settings) (insts : List NodeId) : List NodeId :=
  insts.filter fun i => !r.isRedundant settings i

/-- One more instruction goes to the one or to the other. -/
theorem redundant_append_singleton (r : Routine) (settings : Settings) (pre : List NodeId)
    (inst : NodeId) : redundant r settings (pre ++ [inst]) = redundant r settings pre ++
      if r.isRedundant settings inst = true then [inst] else [] := by
  rw [redundant, List.filter_append, redundant]
  split_ifs with h <;> simp [h]

theorem needed_append_singleton (r : Routine) (settings : Settings) (pre : List NodeId)
    (inst : NodeId) : needed r settings (pre ++ [inst]) = needed r settings pre ++
      if r.isRedundant settings inst = true then [] else [inst] := by
  rw [needed, List.filter_append, needed]
  split_ifs with h <;> simp [h]

/-- The event says that the pass removed the instruction, with its text in the routine. -/
structure Removal (r : Routine) (inst : NodeId) (e : Event) : Prop where
  kind : e.kind = .instructionRemoved
  method : e.method = some r.token
  pass : e.pass = some name
  message : e.message = r.render inst

/-- The blocks of the tree have the instructions `lists`, whose trees are as they were, and the
    log reports the instructions `gone`. -/
structure Filtered (w₀ : Work) (lists : NodeId → List NodeId) (gone : List NodeId) (w : Work) :
    Prop where
  valid : w.routine.Valid
  framed : Framed w₀.routine w.routine
  head : SameHead w₀.routine w.routine
  size : w.routine.nodes.size = w₀.routine.nodes.size
  old : ∀ b, ∀ i ∈ lists b, i ∈ w₀.routine.instructions b
  instructions : ∀ b, w₀.routine.isConnected b = true → w₀.routine.isBlock b = true →
    w.routine.instructions b = lists b
  trees : ∀ b, w₀.routine.isConnected b = true → ∀ i ∈ lists b,
    w₀.routine.isContainer i = false → w.routine.Holds (w₀.routine.tree i)
  reported : ∃ es, w.log.events = w₀.log.events ++ es ∧
    List.Forall₂ (Removal w₀.routine) gone es

theorem Filtered.start (V : r.Valid) : Filtered (w.on r) r.instructions [] (w.on r) where
  valid := V
  framed := Framed.refl r
  head := SameHead.refl r
  size := rfl
  old _ _ hi := hi
  instructions _ _ _ := rfl
  trees _ _ _ hi _ := V.forest.holds_tree
    (isAlive_of_parent? (V.forest.parent?_of_mem_instructions hi).1)
  reported := ⟨[], (List.append_nil _).symm, .nil⟩

/-- What is left of a block is a self-store exactly if it was one at the start. -/
theorem Filtered.isRedundant_eq (h : Filtered w₀ lists gone w) (V₀ : w₀.routine.Valid)
    (hc : w₀.routine.isConnected b = true) (hi : i ∈ lists b) :
    w.routine.isRedundant settings i = w₀.routine.isRedundant settings i := by
  obtain ⟨hp, hb⟩ := V₀.forest.parent?_of_mem_instructions (h.old b i hi)
  have hlive := isAlive_of_parent? hp
  cases hcontainer : w₀.routine.isContainer i with
  | true =>
    have hmem : i ∈ w.routine.instructions b := h.instructions b hc hb ▸ hi
    have hs := isAlive_of_parent? (h.valid.forest.parent?_of_mem_instructions hmem).1
    have hstill : w.routine.isContainer i = true :=
      (isContainer_congr (h.framed.op i hlive hs)).trans hcontainer
    rw [not_redundant_of_container hstill, not_redundant_of_container hcontainer]
  | false =>
    have hcongr : w.routine.isRedundant settings (w₀.routine.tree i).label =
        w₀.routine.isRedundant settings (w₀.routine.tree i).label :=
      isRedundant_congr (V₀.forest.holds_tree hlive) (h.trees b hc i hi hcontainer) V₀.forest
        h.valid.forest h.head
    rwa [label_tree] at hcongr

/-- Removing a self-store keeps the trees of all other instructions. -/
theorem Filtered.drop (h : Filtered w₀ lists gone (w.on r)) (V₀ : w₀.routine.Valid)
    (O₀ : w₀.routine.Orderly) (hc : w₀.routine.isConnected block = true)
    (hi : (lists block)[index]? = some inst)
    (hred : w₀.routine.isRedundant settings inst = true) (he : Removal w₀.routine inst e) :
    Filtered w₀ (Function.update lists block ((lists block).eraseIdx index)) (gone ++ [inst])
      ((w.noted e).on (r.deleteAt block index inst)) := by
  have V : r.Valid := h.valid
  have F := V.forest
  have hmem := List.mem_of_getElem? hi
  obtain ⟨hp₀, hb₀⟩ := V₀.forest.parent?_of_mem_instructions (h.old block inst hmem)
  have hlists : r.instructions block = lists block := h.instructions block hc hb₀
  obtain ⟨hb, hi'⟩ := getElem?_instructions (hlists ▸ hi)
  have hp : r.parent? inst = some block := F.parent?_of_mem (List.mem_of_getElem? hi')
  have hno := not_container_of_redundant hred
  have hplain := O₀.plain_tree V₀ hc (h.old block inst hmem) hno
  have hheld : r.Holds (w₀.routine.tree inst) := h.trees block hc inst hmem hno
  have hframed := Framed.deleteAt V hb hi' hheld (label_tree _ inst) hplain
  have V' := V.deleteAt hb hi'
  have view := views_deleteAt F hp index
  have hsub : ∀ b, (Function.update lists block ((lists block).eraseIdx index) b).Sublist
      (lists b) := by
    intro b
    by_cases hbb : b = block
    · rw [hbb, Function.update_self]
      exact List.eraseIdx_sublist _ _
    · rw [Function.update_of_ne hbb]
  have hinstructions : ∀ b, w₀.routine.isConnected b = true → w₀.routine.isBlock b = true →
      (r.deleteAt block index inst).instructions b =
        Function.update lists block ((lists block).eraseIdx index) b := by
    intro b hbc hbb
    obtain ⟨hbr, hbr'⟩ := h.framed.isBlock hbc hbb
    have hout : ¬ r.encloses inst b = true := by
      rw [F.encloses_iff, ← label_tree w₀.routine inst]
      exact F.not_above_of_plain hheld hplain (isFrame_of_isBlock hbr')
    have hlist : r.children b = lists b := (if_pos hbr').symm.trans (h.instructions b hbc hbb)
    rw [Routine.instructions, if_pos (hframed.isBlock hbr hbr').2, (view b).children, if_neg hout,
      hlist]
    by_cases hne : b = block
    · rw [if_pos hne, hne, Function.update_self]
    · rw [if_neg hne, Function.update_of_ne hne]
  refine ⟨V', h.framed.trans hframed, h.head.trans (sameHead_deleteAt r block index inst),
    (size_deleteAt r block index inst).trans h.size, fun b i hi => h.old b i ((hsub b).subset hi),
    hinstructions, fun b hbc i hib hcontainer => ?_, ?_⟩
  · have hib' := (hsub b).subset hib
    obtain ⟨hpi, hbb⟩ := V₀.forest.parent?_of_mem_instructions (h.old b i hib')
    have hflat : (w₀.routine.tree i).Flat := fun u hu =>
      (O₀.plain_tree V₀ hbc (h.old b i hib') hcontainer u hu).1
    refine holds_deleteAt_of_flat F (h.trees b hbc i hib' hcontainer) hflat (hlists ▸ hi) ?_
    rw [label_tree]
    rw [← hinstructions b hbc hbb] at hib
    exact isAlive_of_parent? (V'.forest.parent?_of_mem_instructions hib).1
  · obtain ⟨es, hes, hall⟩ := h.reported
    have hes : w.log.events = w₀.log.events ++ es := hes
    refine ⟨es ++ [e], ?_, List.rel_append hall (.cons he .nil)⟩
    show w.log.events ++ [e] = _
    rw [hes, List.append_assoc]

/-! ## The scan -/

/-- What holds while a block is scanned: the instructions in front of the index have been
    filtered, and the others are still to be looked at. -/
structure Sifting (settings : Settings) (w₀ : Work) (lists : NodeId → List NodeId)
    (gone : List NodeId) (block : NodeId) (pre post : List NodeId) (w : Work) : Prop where
  split : w₀.routine.instructions block = pre ++ post
  filtered : Filtered w₀
    (Function.update lists block (needed w₀.routine settings pre ++ post))
    (gone ++ redundant w₀.routine settings pre) w

theorem Sifting.length {pre post : List NodeId}
    (h : Sifting settings w₀ lists gone block pre post w)
    (hc : w₀.routine.isConnected block = true) (hb : w₀.routine.isBlock block = true) :
    (w.routine.instructions block).length =
      (needed w₀.routine settings pre).length + post.length := by
  rw [h.filtered.instructions block hc hb, Function.update_self, List.length_append]

/-- The note of a removal, on a routine in which the instruction has the same text. -/
theorem noteRemoval_ends {Q : Unit → Work → Prop} (head : SameHead w₀.routine r)
    (htext : r.render inst = w₀.routine.render inst)
    (hQ : ∀ e, Removal w₀.routine inst e → Q () ((w.noted e).on r)) :
    Ends (PassM.noteNode name .instructionRemoved index inst) (w.on r) Q :=
  Ends.bind (Ends.routine (Ends.bind (Ends.routine (Ends.record
    (hQ _ ⟨rfl, congrArg some head.token, rfl, htext⟩)))))

section Idle

variable (hidle : ∀ block index options w, ctx.inliner block index options w = .ok 0 w)
include hidle

theorem visit_sifts (V₀ : w₀.routine.Valid) (O₀ : w₀.routine.Orderly)
    (hc : w₀.routine.isConnected block = true) (hb : w₀.routine.isBlock block = true) :
    Advances block (visit ctx block) fun index w => ∃ pre post,
      index = (needed w₀.routine ctx.settings pre).length ∧
        Sifting ctx.settings w₀ lists gone block pre post w := by
  rintro w r index inst ⟨pre, post, rfl, hsplit, h⟩ hi
  generalize hkept : needed w₀.routine ctx.settings pre = kept at *
  have hlist : r.instructions block = kept ++ post := by
    have hcurrent := h.instructions block hc hb
    rwa [Function.update_self] at hcurrent
  obtain ⟨post, rfl⟩ : ∃ rest, post = inst :: rest := by
    rw [hlist, List.getElem?_append_right (Nat.le_refl _), Nat.sub_self] at hi
    cases post with
    | nil => cases hi
    | cons a rest => exact ⟨rest, by rw [Option.some.inj hi]⟩
  have hat : (Function.update lists block (kept ++ inst :: post) block)[kept.length]? =
      some inst := by
    rw [Function.update_self, ← hlist]
    exact hi
  have hsplit' : w₀.routine.instructions block = (pre ++ [inst]) ++ post := by
    rw [hsplit, List.append_assoc]
    rfl
  have hsame : r.isRedundant ctx.settings inst = w₀.routine.isRedundant ctx.settings inst :=
    h.isRedundant_eq V₀ hc (List.mem_of_getElem? hat)
  refine Ends.bind (Ends.routine ?_)
  split
  · next hred =>
    rw [hsame] at hred
    obtain ⟨hp, _⟩ := V₀.forest.parent?_of_mem_instructions
      (h.old block inst (List.mem_of_getElem? hat))
    have hheld : r.Holds (w₀.routine.tree inst) :=
      h.trees block hc inst (List.mem_of_getElem? hat) (not_container_of_redundant hred)
    have htext := render_congr h.head h.size
      (V₀.forest.holds_tree (isAlive_of_parent? hp)) hheld
    rw [label_tree] at htext
    refine Ends.bind (noteRemoval_ends h.head htext fun e he => ?_)
    have hdrop := h.drop V₀ O₀ hc hat hred he
    rw [Function.update_self, Function.update_idem] at hdrop
    obtain ⟨hbr, hir⟩ := getElem?_instructions hi
    refine Ends.bind (Ends.bind (Ends.edit (Edit.remove_ok hbr hir) ⟨0, _, hidle _ _ _ _, ?_⟩))
    have herase : (kept ++ inst :: post).eraseIdx kept.length = kept ++ post := by
      rw [List.eraseIdx_append_of_length_le (Nat.le_refl _), Nat.sub_self]
      rfl
    have hpre : needed w₀.routine ctx.settings (pre ++ [inst]) = kept := by
      rw [needed_append_singleton, if_pos hred, List.append_nil, hkept]
    have hnext : Sifting ctx.settings w₀ lists gone block (pre ++ [inst]) post
        ((w.noted e).on (r.deleteAt block kept.length inst)) := by
      refine ⟨hsplit', ?_⟩
      rw [hpre, redundant_append_singleton, if_pos hred, ← List.append_assoc, ← herase]
      exact hdrop
    refine Ends.stepBack (Nat.zero_le _) ⟨⟨pre ++ [inst], post, ?_, hnext⟩, ?_⟩
    · rw [hpre, Nat.sub_zero]
    · rw [hnext.length hc hb, hpre, hlist, List.length_append, List.length_cons]
      omega
  · next hno =>
    rw [hsame] at hno
    have hpre : needed w₀.routine ctx.settings (pre ++ [inst]) = kept ++ [inst] := by
      rw [needed_append_singleton, if_neg hno, hkept]
    have hnext : Sifting ctx.settings w₀ lists gone block (pre ++ [inst]) post (w.on r) := by
      refine ⟨hsplit', ?_⟩
      rw [hpre, redundant_append_singleton, if_neg hno, List.append_nil, List.append_assoc]
      exact h
    refine Ends.pure ⟨⟨pre ++ [inst], post, ?_, hnext⟩, ?_⟩
    · rw [hpre, List.length_append, List.length_singleton]
    · rw [hlist, List.length_append, List.length_cons]
      show (r.instructions block).length - _ < _
      rw [hlist, List.length_append, List.length_cons]
      omega

/-- A scan filters its block. -/
theorem scan_filters (V₀ : w₀.routine.Valid) (O₀ : w₀.routine.Orderly)
    (hc : w₀.routine.isConnected block = true) (hb : w₀.routine.isBlock block = true)
    (hlist : lists block = w₀.routine.instructions block) (h : Filtered w₀ lists gone (w.on r)) :
    Ends (scan block (visit ctx block)) (w.on r) fun _ => Filtered w₀
      (Function.update lists block (needed w₀.routine ctx.settings (w₀.routine.instructions block)))
      (gone ++ redundant w₀.routine ctx.settings (w₀.routine.instructions block)) := by
  have hstart : Sifting ctx.settings w₀ lists gone block [] (w₀.routine.instructions block)
      (w.on r) := by
    refine ⟨rfl, ?_⟩
    rw [← hlist]
    simpa [needed, redundant] using h
  refine (scan_ends (visit_sifts hidle V₀ O₀ hc hb) ⟨[], _, rfl, hstart⟩).mono ?_
  rintro _ w' s ⟨last, ⟨pre, post, rfl, hend⟩, hlast⟩
  have hlength := hend.length hc hb
  obtain rfl : post = [] := List.eq_nil_of_length_eq_zero (by omega)
  have hall := hend.split
  rw [List.append_nil] at hall
  have hfiltered := hend.filtered
  rw [List.append_nil] at hfiltered
  rw [hall]
  exact hfiltered

/-- The instructions of each block when those of some blocks have been filtered. -/
def filteredIn (r : Routine) (settings : Settings) (front : List NodeId) (b : NodeId) :
    List NodeId :=
  if b ∈ front then needed r settings (r.instructions b) else r.instructions b

omit hidle in
theorem update_filteredIn (r : Routine) (settings : Settings) (front : List NodeId)
    (block : NodeId) : Function.update (filteredIn r settings front) block
      (needed r settings (r.instructions block)) = filteredIn r settings (front ++ [block]) := by
  funext b
  by_cases hb : b = block
  · rw [hb, Function.update_self, filteredIn, if_pos (by simp)]
  · have hmem : b ∈ front ++ [block] ↔ b ∈ front := by simp [hb]
    rw [Function.update_of_ne hb, filteredIn, filteredIn]
    simp only [hmem]

/-- The scan of all control-flow blocks filters each of them. -/
theorem scanControlFlow_filters (V : r.Valid) (O : r.Orderly) :
    Ends (scanControlFlow (visit ctx)) (w.on r) fun _ => Filtered (w.on r)
      (filteredIn r ctx.settings r.flowBlocks)
      (r.flowBlocks.flatMap fun b => redundant r ctx.settings (r.instructions b)) := by
  have V₀ : (w.on r).routine.Valid := V
  refine (PassM.scanControlFlow_each (I := fun todo w' =>
    ∃ front, r.flowBlocks = front ++ todo ∧ Filtered (w.on r) (filteredIn r ctx.settings front)
      (front.flatMap fun b => redundant r ctx.settings (r.instructions b)) w') V
    (fun _ _ ⟨_, _, h⟩ => h.framed) ?_ ⟨[], rfl, ?_⟩).mono ?_
  · rintro block todo w' s ⟨front, hall, h⟩
    have hmem : block ∈ r.flowBlocks := by rw [hall]; simp
    obtain ⟨hc, hkind⟩ := V.mem_flowBlocks.mp hmem
    have hout : block ∉ front := by
      have hnd := V.nodup_flowBlocks
      rw [hall] at hnd
      exact fun hin => (List.nodup_append.mp hnd).2.2 block hin block List.mem_cons_self rfl
    refine (scan_filters hidle V₀ O hc (isBlock_of_blockKind? hkind) (if_neg hout)
      h).mono fun _ w'' s' h' => ⟨front ++ [block], ?_, ?_⟩
    · rw [hall, List.append_assoc]
      rfl
    · rw [← update_filteredIn, List.flatMap_append, List.flatMap_singleton]
      exact h'
  · exact Filtered.start V
  · rintro _ w' s ⟨front, hall, h⟩
    rw [List.append_nil] at hall
    rw [hall]
    exact h

end Idle

/-- Without inlining the pass is a filter: each control-flow block of the tree keeps those
    instructions, in their order, that are no self-stores in the routine as it is given, and all
    other blocks keep all of theirs. The trees of the instructions that are left and no
    containers stay, and the log gets one event for each instruction that goes. -/
theorem run_filters (hreach : Reachable w.routine) (hvalid : w.routine.validate = .ok ())
    (horderly : w.routine.Orderly) (hon : ctx.settings.dropSelfStores = true)
    (hidle : ∀ block index options w, ctx.inliner block index options w = .ok 0 w) :
    ∃ w' es, pass.run ctx w = .ok () w' ∧
      (∀ b, w'.routine.isConnected b = true ∧ w'.routine.isBlock b = true ↔
        w.routine.isConnected b = true ∧ w.routine.isBlock b = true) ∧
      (∀ b, w.routine.isConnected b = true → w.routine.isBlock b = true →
        w'.routine.blockKind? b = w.routine.blockKind? b ∧
        w'.routine.instructions b =
          if w.routine.blockKind? b = some .controlFlow then
            (w.routine.instructions b).filter fun i => !w.routine.isRedundant ctx.settings i
          else w.routine.instructions b) ∧
      (∀ b, w'.routine.isConnected b = true → ∀ i ∈ w'.routine.instructions b,
        w.routine.isContainer i = false → w'.routine.tree i = w.routine.tree i) ∧
      w'.log.events = w.log.events ++ es ∧
      List.Forall₂ (Removal w.routine)
        (w.routine.flowBlocks.flatMap fun b =>
          (w.routine.instructions b).filter fun i => w.routine.isRedundant ctx.settings i) es := by
  have V := (valid_iff hreach).mp hvalid
  have hrun : Ends (pass.run ctx) w fun _ => Filtered w
      (filteredIn w.routine ctx.settings w.routine.flowBlocks)
      (w.routine.flowBlocks.flatMap fun b =>
        redundant w.routine ctx.settings (w.routine.instructions b)) := by
    show Ends (if ctx.settings.dropSelfStores then _ else _) _ _
    rw [if_pos hon]
    exact scanControlFlow_filters hidle V horderly
  obtain ⟨_, w', hrun, h⟩ := hrun
  obtain ⟨es, hes, hall⟩ := h.reported
  have hblocks : ∀ b, w'.routine.isConnected b = true ∧ w'.routine.isBlock b = true ↔
      w.routine.isConnected b = true ∧ w.routine.isBlock b = true := by
    refine fun b => ⟨fun ⟨hc, hb⟩ => ?_, fun ⟨hc, hb⟩ => h.framed.isBlock hc hb⟩
    obtain ⟨hr, hop⟩ := h.framed.op_old hc (isFrame_of_isBlock hb)
    exact ⟨hr, (isBlock_congr hop).trans hb⟩
  refine ⟨w', es, hrun, hblocks, fun b hc hb => ⟨h.framed.blockKind? hc hb, ?_⟩,
    fun b hc i hi hcontainer => ?_, hes, hall⟩
  · rw [h.instructions b hc hb, filteredIn]
    refine if_congr ?_ rfl rfl
    rw [V.mem_flowBlocks, and_iff_right hc]
  · obtain ⟨_, hb⟩ := h.valid.forest.parent?_of_mem_instructions hi
    obtain ⟨hc₀, hb₀⟩ := (hblocks b).mp ⟨hc, hb⟩
    have hheld := h.trees b hc₀ i (h.instructions b hc₀ hb₀ ▸ hi) hcontainer
    have htree := h.valid.forest.tree_of_holds hheld
    rwa [label_tree] at htree

namespace Sample

/-- The calls that store a fresh load of `v0` into `v0`, given the handle of the load, and put
    the store into a block. -/
def selfStore (block load : Nat) : List Primitive :=
  [.load ⟨0⟩, .create (.stloc ⟨0⟩) [⟨load⟩], .push ⟨block⟩ ⟨load + 1⟩]

/-- The calls that put `stobj Void(ldflda value(ldloc v0), ldobj Void(ldflda value(ldloc v0)))`
    into a block, given the handle of the first load. -/
def fieldStore (block load : Nat) : List Primitive :=
  [ .load ⟨0⟩, .create (.ldflda value) [⟨load⟩],
    .load ⟨0⟩, .create (.ldflda value) [⟨load + 2⟩], .create (.ldobj .void) [⟨load + 3⟩],
    .create (.stobj .void) [⟨load + 1⟩, ⟨load + 4⟩], .push ⟨block⟩ ⟨load + 5⟩]

/-- The calls that build two self-stores next to each other, in front of a container with a third
    one, and a fourth one in a dispatch block. Each of the three blocks has a self-store of a field
    behind them. -/
def nestedCalls : List Primitive :=
  [ .declare .localSlot 0 "a" .void, .newBlock ⟨0⟩ .controlFlow, .newBlock ⟨0⟩ .switchDispatch] ++
  selfStore 1 3 ++ selfStore 1 5 ++
  [ .nop, .push ⟨1⟩ ⟨7⟩, .newContainer, .push ⟨1⟩ ⟨8⟩, .newBlock ⟨8⟩ .controlFlow] ++
  selfStore 9 10 ++ selfStore 2 12 ++ fieldStore 1 14 ++ fieldStore 9 20 ++ fieldStore 2 26

/-- The routine with seven self-stores. -/
def nested : Routine := nestedCalls.foldl Primitive.after (Routine.empty ⟨0x06000001⟩ "Draw")

end Sample

set_option maxRecDepth 8000 in
/-- Neither of two adjacent self-stores is missed, nor those of fields, nor those in a container,
    and those in the dispatch block stay. -/
theorem filtered_with_container :
    Sample.nested.Orderly ∧ Sample.nested.instructions ⟨1⟩ = [⟨4⟩, ⟨6⟩, ⟨7⟩, ⟨8⟩, ⟨19⟩] ∧
    Sample.nested.refillsField ⟨19⟩ = true ∧
    ∃ w', pass.run { settings := {}, inliner := Inliner.idle } { routine := Sample.nested } =
        .ok () w' ∧
      w'.routine.instructions ⟨1⟩ = [⟨7⟩, ⟨8⟩] ∧ w'.routine.instructions ⟨9⟩ = [] ∧
      w'.routine.instructions ⟨2⟩ = [⟨13⟩, ⟨31⟩] ∧ w'.log.events.length = 5 := by
  have hreach : Reachable Sample.nested := (Reachable.empty _ _).after _
  have horderly : Sample.nested.Orderly := by decide +kernel
  let ctx : Context := { settings := {}, inliner := Inliner.idle }
  have hidle : ∀ block index options w, ctx.inliner block index options w = .ok 0 w :=
    fun _ _ _ _ => rfl
  obtain ⟨w', es, hrun, _, hlists, _, hlog, hall⟩ := run_filters
    (w := { routine := Sample.nested }) hreach (by decide +kernel) horderly rfl hidle
  refine ⟨horderly, by decide +kernel, by decide +kernel, w', hrun, ?_, ?_, ?_, ?_⟩
  · rw [(hlists ⟨1⟩ (by decide +kernel) (by decide +kernel)).2]
    decide +kernel
  · rw [(hlists ⟨9⟩ (by decide +kernel) (by decide +kernel)).2]
    decide +kernel
  · rw [(hlists ⟨2⟩ (by decide +kernel) (by decide +kernel)).2]
    decide +kernel
  · rw [hlog, List.nil_append, ← hall.length_eq]
    decide +kernel

end SelfStore

end CilFold
