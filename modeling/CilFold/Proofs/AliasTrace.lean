/-
  Stripping receiver aliases keeps the trace of straight-line code, with an inliner that leaves
  everything as it is. A stripped alias must be loaded only after its store, and no receiver may
  be stored between its store and one of its loads: the pass looks at the uses of the alias, not
  at those of the receiver, and puts a later reading of the receiver into the place of an
  earlier one.
-/
import CilFold.Proofs.SafePass
import CilFold.Proofs.Marks
import CilFold.Proofs.Evaluation

namespace CilFold

open Routine PassM

open scoped List

/-! ## Code in an arena -/

theorem exists_append_of_getElem? {α : Type} {l : List α} {a : α} {i : Nat} (h : l[i]? = some a) :
    ∃ pre post, l = pre ++ a :: post ∧ pre.length = i := by
  obtain ⟨hlt, rfl⟩ := List.getElem?_eq_some_iff.mp h
  refine ⟨l.take i, l.drop (i + 1), ?_, by rw [List.length_take]; omega⟩
  rw [← List.drop_eq_getElem_cons hlt, List.take_append_drop]

namespace Tree

variable {var this : VarId} {load n : NodeId} {t : Tree NodeId}

/-- A load of the original in the place of a load of the copy makes no difference once the loads
    of the copy are redirected. -/
theorem redirect_plantAt
    (h : ∀ u ∈ t.subtrees, u.label = load → u = .node load (.ldloc var) []) :
    (t.plantAt load (.node n (.ldloc this) [])).redirect var this = t.redirect var this := by
  induction t with
  | node a op ts ih =>
    obtain ⟨htop, hts⟩ := forall_subtrees_node.mp h
    by_cases ha : a = load
    · rw [htop ha, plantAt_top (label_node load _ _), redirect_node, redirect_node]
      simp [Op.redirect]
    · rw [plantAt_node ha, redirect_node, redirect_node, List.map_map]
      exact congrArg (node () _) (List.map_congr_left fun t ht => ih t ht (hts t ht))

end Tree

namespace Routine

variable {r s : Routine} {block inst k load n p receiver : NodeId} {var this : VarId} {index : Nat}
  {ts : List (Tree NodeId)} {settings : Settings}

/-- The tree of a routine whose body is one control-flow block with the given instructions. -/
def lineTree (body block : NodeId) (ts : List (Tree NodeId)) : Tree NodeId :=
  .node body .container [.node block (.block .controlFlow) ts]

/-- The body is one control-flow block without containers in it. -/
structure Linear (r : Routine) (block : NodeId) : Prop where
  holds : r.Holds (lineTree r.body block r.code)
  plain : ∀ op ∈ r.ops, op.isContainer = false

/-- What a routine has that holds a tree of one block. -/
theorem holds_lineTree (h : r.Holds (lineTree r.body block ts)) :
    r.blocks r.body = [block] ∧ r.op? block = some (.block .controlFlow) ∧
      r.instructions block = ts.map Tree.label ∧ ∀ t ∈ ts, r.Holds t := by
  have hb := h.operand (List.mem_singleton_self _)
  have hbody : r.op? r.body = some .container := h.op?
  have hop : r.op? block = some (.block .controlFlow) := hb.op?
  refine ⟨?_, hop, ?_, fun t ht => hb.operand ht⟩
  · rw [blocks, isContainer, hbody]
    exact h.children
  · rw [instructions, isBlock, hop]
    exact hb.children

theorem code_of_holds (F : r.Forest) (h : r.Holds (lineTree r.body block ts)) : r.code = ts := by
  obtain ⟨hblocks, _, hinst, hts⟩ := holds_lineTree h
  rw [code, hblocks, List.flatMap_singleton, hinst, List.map_map]
  exact (List.map_congr_left fun t ht => F.tree_of_holds (hts t ht)).trans (List.map_id' ts)

theorem Linear.of_holds (F : r.Forest) (h : r.Holds (lineTree r.body block ts))
    (hplain : ∀ op ∈ Tree.opsOf ts, op.isContainer = false) : r.Linear block := by
  have hcode := code_of_holds F h
  exact ⟨hcode ▸ h, by rw [ops, hcode]; exact hplain⟩

theorem StraightLine.linear (h : r.StraightLine block) (V : r.Valid) : r.Linear block := by
  obtain ⟨hbody, hkind, hops⟩ := h
  have F := V.forest
  have hop : r.op? block = some (.block .controlFlow) := by
    unfold blockKind? at hkind
    split at hkind
    · next hop => rw [hop, Option.some.inj hkind]
    · cases hkind
  have hlabels : r.children block = ((r.children block).map r.tree).map Tree.label := by
    rw [List.map_map]
    exact (List.map_id'' (label_tree r) (r.children block)).symm
  have hblock : r.Holds (.node block (.block .controlFlow) ((r.children block).map r.tree)) := by
    refine .node hop hlabels fun t ht => ?_
    obtain ⟨c, hc, rfl⟩ := List.mem_map.mp ht
    exact F.holds_tree (F.alive_of_mem_children hc)
  have hline : r.Holds (lineTree r.body block ((r.children block).map r.tree)) :=
    .unary F.op?_body hbody hblock
  exact .of_holds F hline fun op hop => (hops op (by rw [ops, code_of_holds F hline]; exact hop)).1

namespace Linear

variable (L : r.Linear block) (F : r.Forest)
include L

theorem op?_block : r.op? block = some (.block .controlFlow) := (holds_lineTree L.holds).2.1

theorem instructions : r.instructions block = r.code.map Tree.label :=
  (holds_lineTree L.holds).2.2.1

theorem holds_of_mem {t : Tree NodeId} (ht : t ∈ r.code) : r.Holds t :=
  (holds_lineTree L.holds).2.2.2 t ht

include F

/-- The nodes of the tree are the body, the block and those of the code. -/
theorem isConnected_iff :
    r.isConnected k = true ↔ k = r.body ∨ k = block ∨ ∃ t ∈ r.code, k ∈ t.labels := by
  have hmem : k ∈ (lineTree r.body block r.code).labels ↔ r.Above r.body k :=
    F.mem_labels L.holds
  rw [F.isConnected_iff_above, ← hmem, lineTree, Tree.mem_labels_node]
  simp [Tree.mem_labels_node]

/-- An operation of the code has a node in the tree. -/
theorem exists_of_mem_ops {op : Op} {ts : List (Tree NodeId)} (hts : ts ⊆ r.code)
    (h : op ∈ Tree.opsOf ts) :
    ∃ t ∈ ts, ∃ k ∈ t.labels, r.op? k = some op ∧ r.isConnected k = true := by
  rw [Tree.opsOf_eq] at h
  obtain ⟨t, ht, hop⟩ := List.mem_flatMap.mp h
  obtain ⟨u, hu, rfl⟩ := Tree.mem_ops.mp hop
  have hk : u.label ∈ t.labels := List.mem_map_of_mem hu
  exact ⟨t, ht, u.label, hk, ((L.holds_of_mem (hts ht)).subtree hu).op?,
    (L.isConnected_iff F).mpr (.inr (.inr ⟨t, hts ht, hk⟩))⟩

/-- There is no block but the one. -/
theorem eq_block (V : r.Valid) (hk : r.isConnected k = true) (hb : r.isBlock k = true) :
    k = block := by
  obtain ⟨c, hp⟩ := F.exists_parent hk (not_container_of_block hb)
  have hc : r.isConnected c = true := (F.shared hp).symm.trans hk
  have hcontainer : r.isContainer c = true := (V.inPlace k c hc hp).symm.trans hb
  rcases (L.isConnected_iff F).mp hc with rfl | rfl | ⟨t, ht, hct⟩
  · have hmem : k ∈ r.blocks r.body := by
      rw [blocks, if_pos hcontainer]
      exact F.listed hp
    rw [(holds_lineTree L.holds).1] at hmem
    exact List.mem_singleton.mp hmem
  · rw [isContainer, L.op?_block] at hcontainer
    cases hcontainer
  · obtain ⟨u, hu, rfl⟩ := List.mem_map.mp hct
    have hplain := L.plain u.op (by
      rw [ops, Tree.opsOf_eq]
      exact List.mem_flatMap.mpr ⟨t, ht, Tree.mem_ops.mpr ⟨u, hu, rfl⟩⟩)
    rw [isContainer, ((L.holds_of_mem ht).subtree hu).op?, Option.any_some, hplain] at hcontainer
    cases hcontainer

/-- A load of the receiver comes into the place of a load. -/
theorem graft (hop : r.op? load = some (.ldloc var))
    (G : Grafted r load p (.node n (.ldloc this) []) s) :
    s.Linear block ∧ s.code = r.code.map (Tree.plantAt load · (.node n (.ldloc this) [])) ∧
      s.code.map (Tree.redirect var this) = r.code.map (Tree.redirect var this) := by
  have hleaf : r.Holds (.node load (.ldloc var) []) := .leaf hop (F.children_of_ldloc hop)
  have hbody : r.body ≠ load := fun he => by
    rw [← he, F.op?_body] at hop
    cases hop
  have hblock : block ≠ load := fun he => by
    rw [← he, L.op?_block] at hop
    cases hop
  have hs := G.holds_plant F L.holds (F.not_above_body G.place)
  rw [lineTree, Tree.plantAt_node hbody, List.map_singleton, Tree.plantAt_node hblock,
    ← G.head.body] at hs
  have hcode := code_of_holds G.valid.forest hs
  have hsame : s.code.map (Tree.redirect var this) = r.code.map (Tree.redirect var this) := by
    rw [hcode, List.map_map]
    refine List.map_congr_left fun t ht => Tree.redirect_plantAt fun u hu hl => ?_
    exact ((L.holds_of_mem ht).subtree hu).unique hleaf hl
  refine ⟨.of_holds G.valid.forest hs fun op hop => ?_, hcode, hsame⟩
  have hops := congrArg Tree.opsOf hsame
  rw [Tree.opsOf_redirect, Tree.opsOf_redirect, hcode] at hops
  have hmem := List.mem_map_of_mem (f := Op.redirect var this) hop
  rw [hops] at hmem
  obtain ⟨op', hop', he⟩ := List.mem_map.mp hmem
  have hkind := congrArg Op.isContainer he
  rw [Op.isContainer_redirect, Op.isContainer_redirect] at hkind
  rw [← hkind]
  exact L.plain op' hop'

/-- The instructions share no nodes. -/
theorem apart {t x : Tree NodeId} {pre post : List (Tree NodeId)}
    (hcode : r.code = pre ++ t :: post) (hx : x ∈ pre ++ post) (hk : k ∈ t.labels) :
    k ∉ x.labels := by
  have hnodup : (r.code.flatMap Tree.labels).Nodup := by
    have h := F.nodup_labels L.holds
    rw [lineTree, Tree.labels_node, List.flatMap_singleton, Tree.labels_node] at h
    exact (List.nodup_cons.mp (List.nodup_cons.mp h).2).2
  have hperm : r.code.Perm (t :: (pre ++ post)) := hcode ▸ List.perm_middle
  have hsplit := (hperm.flatMap_right Tree.labels).nodup_iff.mp hnodup
  rw [List.flatMap_cons] at hsplit
  exact fun hkx => (List.nodup_append.mp hsplit).2.2 k hk k
    (List.mem_flatMap.mpr ⟨x, hx, hkx⟩) rfl

/-- An instruction goes. -/
theorem deleteAt {t : Tree NodeId} {pre post : List (Tree NodeId)}
    (hcode : r.code = pre ++ t :: post) :
    (r.deleteAt block pre.length t.label).Linear block ∧
      (r.deleteAt block pre.length t.label).code = pre ++ post := by
  have hb : r.isBlock block = true := by
    rw [isBlock, L.op?_block]
    rfl
  have hi : (r.children block)[pre.length]? = some t.label := by
    have hchildren := L.instructions
    rw [Routine.instructions, if_pos hb] at hchildren
    rw [hchildren, hcode, List.getElem?_map, List.getElem?_append_right (Nat.le_refl _),
      Nat.sub_self]
    rfl
  have hp := F.parent?_of_mem (List.mem_of_getElem? hi)
  have F' := F.deleteAt hb hi
  have hs := F.holds_deleteAt hi L.holds (F.not_above_body hp)
  have hkeep : ((r.code.filter fun x => !(x.label == t.label)).map (Tree.prune (· == t.label))) =
      pre ++ post := by
    have hother : ∀ x ∈ pre ++ post, ∀ k ∈ x.labels, (k == t.label) = false := by
      intro x hx k hk
      rw [beq_eq_false_iff_ne]
      rintro rfl
      exact L.apart F hcode hx t.label_mem_labels hk
    have hfilter : r.code.filter (fun x => !(x.label == t.label)) = pre ++ post := by
      rw [hcode, List.filter_append, List.filter_cons, beq_self_eq_true, Bool.not_true,
        if_neg Bool.false_ne_true, ← List.filter_append]
      exact List.filter_eq_self.mpr fun x hx => by rw [hother x hx _ x.label_mem_labels]; rfl
    rw [hfilter]
    exact (List.map_congr_left fun x hx => Tree.prune_eq_self (hother x hx)).trans (List.map_id' _)
  have hne : (block == t.label) = false := beq_eq_false_iff_ne.mpr fun he =>
    F.not_above_parent hp (he ▸ Above.refl r t.label)
  rw [lineTree, Tree.prune_node, List.filter_cons, Tree.label_node, hne, Bool.not_false, if_pos rfl,
    List.filter_nil, List.map_singleton, Tree.prune_node, hkeep,
    ← (sameHead_deleteAt r block pre.length t.label).body] at hs
  refine ⟨.of_holds F' hs fun op hop => L.plain op ?_, code_of_holds F' hs⟩
  rw [ops, hcode, Tree.opsOf_append, Tree.opsOf]
  rw [Tree.opsOf_append] at hop
  exact ((List.sublist_append_right _ _).append_left _).subset hop

end Linear

/-! ## One alias -/

/-- One alias is missing, whose store held a load of another variable, and its loads have become
    loads of that one. -/
def StripStep (var this : VarId) (r s : Routine) : Prop :=
  ∃ a b pre post, r.code = pre ++ .node a (.stloc var) [.node b (.ldloc this) []] :: post ∧
    .stloc var ∉ Tree.opsOf (pre ++ post) ∧
    s.code.map Tree.bare = (pre ++ post).map (Tree.redirect var this)

/-- A variable with one store on its use-list is stored by one instruction. -/
theorem Linear.not_stored (L : r.Linear block) (V : r.Valid) {x : Variable} {t : Tree NodeId}
    {pre post : List (Tree NodeId)} (hx : r.var? var = some x) (hstores : x.stores.length = 1)
    (hcode : r.code = pre ++ t :: post) (hop : t.op = .stloc var) :
    .stloc var ∉ Tree.opsOf (pre ++ post) := by
  have F := V.forest
  have hmem : t ∈ r.code := hcode ▸ List.mem_append_right _ List.mem_cons_self
  have hsub : pre ++ post ⊆ r.code := hcode ▸
    ((List.sublist_cons_self t post).append_left pre).subset
  intro hstore
  obtain ⟨y, hy, k, hk, hkop, hkc⟩ := L.exists_of_mem_ops F hsub hstore
  have htop : r.op? t.label = some (.stloc var) := hop ▸ (L.holds_of_mem hmem).op?
  have htc : r.isConnected t.label = true :=
    (L.isConnected_iff F).mpr (.inr (.inr ⟨t, hmem, t.label_mem_labels⟩))
  obtain ⟨only, honly⟩ := List.length_eq_one_iff.mp hstores
  have hk' : k ∈ x.stores := (V.mem_stores_iff hx).mpr ⟨hkop, hkc⟩
  have ht' : t.label ∈ x.stores := (V.mem_stores_iff hx).mpr ⟨htop, htc⟩
  rw [honly, List.mem_singleton] at hk' ht'
  exact L.apart F hcode hy (ht'.trans hk'.symm ▸ t.label_mem_labels) hk

/-- No load of the variable is evaluated before its store, and no store of a receiver between
    the two. -/
def Settled (r : Routine) (v : VarId) : Prop :=
  ¬ [.ldloc v, .stloc v] <+ r.ops ∧
    ∀ x, r.isReceiver x = true → ¬ [.stloc v, .stloc x, .ldloc v] <+ r.ops

/-- A store of the variable was evaluated before, and none is afterwards. -/
def Stripped (r s : Routine) (v : VarId) : Prop := .stloc v ∈ r.ops ∧ .stloc v ∉ s.ops

namespace StripStep

variable {v : VarId} (h : StripStep var this r s)
include h

/-- The operations of the store go, and loads are redirected in what is left. -/
theorem ops : ∃ l l', r.ops = l ++ [.ldloc this, .stloc var] ++ l' ∧ .stloc var ∉ l ++ l' ∧
    s.ops = (l ++ l').map (Op.redirect var this) := by
  obtain ⟨a, b, pre, post, hr, hstore, hs⟩ := h
  rw [Tree.opsOf_append] at hstore
  refine ⟨Tree.opsOf pre, Tree.opsOf post, ?_, hstore, ?_⟩
  · rw [Routine.ops, hr, Tree.opsOf_append, List.append_assoc]
    rfl
  · rw [← Tree.opsOf_append, ← Tree.opsOf_redirect, ← hs, Tree.opsOf_bare]
    rfl

/-- What is evaluated afterwards was evaluated before, in the same order, loads of the receiver
    apart. -/
theorem sublist {l : List Op} (hl : l <+ s.ops) (hload : .ldloc this ∉ l) : l <+ r.ops := by
  obtain ⟨front, back, hr, _, hs⟩ := h.ops
  rw [hs] at hl
  obtain ⟨l', hl', rfl⟩ := List.sublist_map_iff.mp hl
  have hsame : l'.map (Op.redirect var this) = l' := by
    refine (List.map_congr_left fun op hop => Op.redirect_of_ne ?_).trans (List.map_id' l')
    rintro rfl
    exact hload (List.mem_map.mpr ⟨_, hop, by rw [Op.redirect, if_pos rfl]⟩)
  rw [hsame, hr]
  exact hl'.trans ((List.sublist_append_left _ _).append_right _)

theorem length : s.code.length + 1 = r.code.length := by
  obtain ⟨a, b, pre, post, hr, _, hs⟩ := h
  have hlength := congrArg List.length hs
  rw [List.length_map, List.length_map] at hlength
  rw [hr, hlength, List.length_append, List.length_append, List.length_cons]
  omega

theorem stored (hv : .stloc v ∈ s.ops) : .stloc v ∈ r.ops :=
  List.singleton_sublist.mp (h.sublist (List.singleton_sublist.mpr hv) (by simp))

theorem stripped : Stripped r s var := by
  obtain ⟨front, back, hr, hstore, hs⟩ := h.ops
  refine ⟨by simp [hr], fun hmem => hstore ?_⟩
  rw [hs] at hmem
  obtain ⟨op, hop, he⟩ := List.mem_map.mp hmem
  cases op with
  | stloc u => exact he ▸ hop
  | _ => cases he

/-- What is settled stays so. -/
theorem settled (hthis : r.isReceiver this = true) (head : SameHead r s)
    (hv : r.isReceiver v = false) (hs : r.Settled v) : s.Settled v := by
  have hne : this ≠ v := by
    rintro rfl
    rw [hthis] at hv
    cases hv
  refine ⟨fun hl => hs.1 (h.sublist hl (by simp [hne])), fun x hx hl => hs.2 x ?_ ?_⟩
  · rw [← head.isReceiver]
    exact hx
  · exact h.sublist hl (by simp [hne])

/-- Stripping a settled alias of the receiver keeps the trace. -/
theorem trace_eq (hthis : r.isReceiver this = true) (hvar : r.isReceiver var = false)
    (hs : r.Settled var) {V : Type} (M : Meaning V) (vars : VarId → V) :
    s.trace M vars = r.trace M vars := by
  obtain ⟨a, b, pre, post, hr, hstore, hcode⟩ := h
  have hne : this ≠ var := by
    rintro rfl
    rw [hthis] at hvar
    cases hvar
  have hops : r.ops = Tree.opsOf pre ++ ([.ldloc this, .stloc var] ++ Tree.opsOf post) := by
    rw [Routine.ops, hr, Tree.opsOf_append]
    rfl
  obtain ⟨hbefore, hbetween⟩ := hs
  rw [hops] at hbefore
  have hpre : .ldloc var ∉ Tree.opsOf pre := fun hload => hbefore
    ((List.singleton_sublist.mpr hload).append (List.singleton_sublist.mpr (by simp)))
  have hguard : ¬ [.stloc this, .ldloc var] <+ Tree.opsOf post := by
    intro hl
    refine hbetween this hthis ?_
    rw [hops]
    exact (((List.sublist_cons_self _ [Op.stloc var]).append hl).trans
      (List.sublist_append_right _ _))
  rw [trace, trace, hr, ← Tree.trace_redirect hne hpre hstore hguard, ← hcode, Tree.evalAll_bare]

end StripStep

end Routine

namespace Alias

variable {r s : Routine} {block inst receiver : NodeId} {var this : VarId} {index : Nat}
  {w : Work} {ctx : Context} {pre post : List (Tree NodeId)}

/-- What holds while the loads of an alias are replaced in straight-line code. -/
structure Redirecting (r : Routine) (block : NodeId) (var this : VarId) (store : Tree NodeId)
    (index : Nat) (loads : List NodeId) (w : Work) : Prop where
  valid : w.routine.Valid
  head : SameHead r w.routine
  linear : w.routine.Linear block
  store : w.routine.code[index]? = some store
  same : w.routine.code.map (Tree.redirect var this) = r.code.map (Tree.redirect var this)
  nodup : loads.Nodup
  loads : ∀ k, k ∈ loads ↔
    w.routine.op? k = some (.ldloc var) ∧ w.routine.isConnected k = true

theorem replaceLoads_redirects (hthis : this ≠ var) {loads : List NodeId}
    (h : Redirecting r block var this (.node inst (.stloc var) [.node receiver (.ldloc this) []])
      index loads (w.on s)) {location : Nat} :
    Ends (replaceLoads location receiver loads) (w.on s) fun _ =>
      Redirecting r block var this (.node inst (.stloc var) [.node receiver (.ldloc this) []])
        index [] := by
  refine Ends.forM (fun load rest w s h => ?_) h
  have V : s.Valid := h.valid
  have F := V.forest
  have L : s.Linear block := h.linear
  have hcode : s.code[index]? = _ := h.store
  obtain ⟨hnot, hnodup⟩ := List.nodup_cons.mp h.nodup
  obtain ⟨hop, hconn⟩ : s.op? load = some (.ldloc var) ∧ s.isConnected load = true :=
    (h.loads load).mp List.mem_cons_self
  have hstore := L.holds_of_mem (List.mem_of_getElem? hcode)
  have hreceiver := (hstore.operand (List.mem_singleton_self _)).op?
  refine replaceLoad_ends V hreceiver hop hconn fun p n e s' G _ _ => ?_
  obtain ⟨L', hcode', hsame⟩ := L.graft F hop G
  refine ⟨G.valid, h.head.trans G.head, L', ?_, hsame.trans h.same, hnodup, fun k => ?_⟩
  · show s'.code[index]? = _
    rw [hcode', List.getElem?_map, hcode, Option.map_some]
    refine congrArg some (Tree.plant_eq_self fun k hk => if_neg ?_)
    -- the load is none of the nodes of the store: their operations are different
    rintro rfl
    rcases Tree.mem_labels_node.mp hk with rfl | ⟨u, hu, hk⟩
    · cases hop.symm.trans hstore.op?
    · rw [List.mem_singleton.mp hu] at hk
      rcases Tree.mem_labels_node.mp hk with rfl | ⟨_, hnil, _⟩
      · cases hop.symm.trans hreceiver
        exact hthis rfl
      · cases hnil
  · have hleaf := F.children_of_ldloc hop
    constructor
    · intro hk
      obtain ⟨hkop, hkconn⟩ : s.op? k = some (.ldloc var) ∧ s.isConnected k = true :=
        (h.loads k).mp (List.mem_cons_of_mem _ hk)
      have hne : k ≠ load := fun he => hnot (he ▸ hk)
      have hk' : s'.isAlive k = true := (G.isAlive_iff F (isAlive_of_op? hkop)).mpr fun hab =>
        hne (F.eq_of_above_leaf hleaf hab)
      exact ⟨(G.kept.op k (isAlive_of_op? hkop) hk').trans hkop, G.kept.connected k hkconn hk'⟩
    · rintro ⟨hkop, hkconn⟩
      have hkop : s'.op? k = some (.ldloc var) := hkop
      rcases G.isConnected_cases F hkconn with hold | hfresh
      · have hk' := isAlive_of_isConnected hold
        rw [G.kept.op k hk' (isAlive_of_op? hkop)] at hkop
        refine (List.mem_cons.mp ((h.loads k).mpr ⟨hkop, hold⟩)).resolve_left ?_
        rintro rfl
        exact (G.isAlive_iff F hk').mp (isAlive_of_isConnected hkconn) (Above.refl s k)
      · rcases Tree.mem_labels_node.mp hfresh with rfl | ⟨_, hnil, _⟩
        · cases G.new.op?.symm.trans hkop
          exact absurd rfl hthis
        · cases hnil

/-- When no load of the alias is left, its store goes, and the alias is stripped. -/
theorem Redirecting.strip {store : Tree NodeId}
    (h : Redirecting r block var this store index [] (w.on s))
    (hstore : store = .node inst (.stloc var) [.node receiver (.ldloc this) []])
    (hr : r.code = pre ++ store :: post) (hlen : pre.length = index)
    (honly : .stloc var ∉ Tree.opsOf (pre ++ post)) :
    (s.deleteAt block index inst).Linear block ∧
      StripStep var this r (s.deleteAt block index inst) := by
  have F : s.Forest := h.valid.forest
  have L : s.Linear block := h.linear
  have hsame : s.code.map (Tree.redirect var this) = r.code.map (Tree.redirect var this) := h.same
  have hbare : s.code.map (Tree.redirect var this) = s.code.map Tree.bare := by
    refine Tree.map_redirect_eq_bare fun hload => ?_
    obtain ⟨_, _, k, _, hk⟩ := L.exists_of_mem_ops F (List.Subset.refl _) hload
    exact absurd ((h.loads k).mpr hk) List.not_mem_nil
  have hlabel : store.label = inst := by rw [hstore, Tree.label_node]
  have hstored : s.code[index]? = _ := h.store
  obtain ⟨pre', post', hs, hlen'⟩ := exists_append_of_getElem? hstored
  obtain ⟨L', hcode⟩ := L.deleteAt F hs
  rw [hlen', hlabel] at L' hcode
  refine ⟨L', inst, receiver, pre, post, hstore ▸ hr, honly, ?_⟩
  rw [hbare, hs, hr, List.map_append, List.map_append, List.map_cons, List.map_cons] at hsame
  obtain ⟨hfront, hback⟩ := List.append_inj hsame (by simp [hlen, hlen'])
  rw [hcode, List.map_append, List.map_append, hfront, (List.cons.inj hback).2]

/-- A visit of straight-line code goes on, or strips an alias of a receiver. -/
theorem visit_strips (hidle : ∀ block index options w, ctx.inliner block index options w = .ok 0 w)
    (V : r.Valid) (L : r.Linear block) (hi : (r.instructions block)[index]? = some inst) :
    Ends (visit ctx block index inst) (w.on r) fun next w' =>
      next = index + 1 ∧ w'.routine = r ∨
      next = index ∧ w'.routine.Valid ∧ w'.routine.Linear block ∧ SameHead r w'.routine ∧
        ∃ var this, r.isReceiver var = false ∧ r.isReceiver this = true ∧
          StripStep var this r w'.routine := by
  have F := V.forest
  refine Ends.bind (Ends.routine ?_)
  cases ha : r.alias? ctx.settings inst with
  | none => exact Ends.pure (.inl ⟨rfl, rfl⟩)
  | some pair =>
    obtain ⟨var, receiver⟩ := pair
    obtain ⟨this, hstore, hvar, hthis⟩ := (alias?_eq_some F).mp ha
    obtain ⟨x, hx, _, _, hstores, _⟩ := isCandidate_eq_true.mp hvar
    have hrecv := not_receiver_of_candidate hvar
    have hne : this ≠ var := by
      rintro rfl
      rw [hrecv] at hthis
      cases hthis
    have hcode : r.code[index]? =
        some (.node inst (.stloc var) [.node receiver (.ldloc this) []]) := by
      rw [L.instructions, List.getElem?_map] at hi
      obtain ⟨t, ht, hl⟩ := Option.map_eq_some_iff.mp hi
      rw [ht, (L.holds_of_mem (List.mem_of_getElem? ht)).unique hstore hl]
    have hstart : Redirecting r block var this
        (.node inst (.stloc var) [.node receiver (.ldloc this) []]) index (r.loads var) (w.on r) :=
      ⟨V, SameHead.refl r, L, hcode, rfl, V.nodup_loads var, fun k =>
        ⟨V.op?_of_mem_loads, fun hk => V.mem_loads hx hk.1 hk.2⟩⟩
    refine (replaceLoads_redirects hne hstart).andThen fun _ w' s h => ?_
    obtain ⟨pre, post, hr, hlen⟩ := exists_append_of_getElem? hcode
    obtain ⟨L', hstep⟩ := h.strip rfl hr hlen (L.not_stored V hx hstores hr rfl)
    obtain ⟨hb, hi'⟩ : s.isBlock block = true ∧ (s.children block)[index]? = some inst := by
      have L : s.Linear block := h.linear
      have hat : s.code[index]? = _ := h.store
      refine getElem?_instructions ?_
      rw [L.instructions, List.getElem?_map, hat]
      rfl
    refine Ends.bind (Ends.noteNode fun e _ _ => ?_)
    refine Ends.bind (Ends.bind (Ends.edit (Edit.remove_ok hb hi') ?_))
    refine ⟨0, _, hidle _ _ _ _, Ends.stepBack (Nat.zero_le _) (.inr ⟨rfl, ?_⟩)⟩
    have V' : s.Valid := h.valid
    exact ⟨V'.deleteAt hb hi', L', h.head.trans (sameHead_deleteAt s block index inst), var, this,
      hrecv, hthis, hstep⟩

/-! ## The whole pass -/

/-- What the pass keeps of straight-line code. -/
structure Faithful (r₀ : Routine) (block : NodeId) (w : Work) : Prop where
  valid : w.routine.Valid
  linear : w.routine.Linear block
  head : SameHead r₀ w.routine
  stored : ∀ v, .stloc v ∈ w.routine.ops → .stloc v ∈ r₀.ops
  settled : ∀ v, r₀.isReceiver v = false → r₀.Settled v → w.routine.Settled v
  trace : (∀ v, Routine.Stripped r₀ w.routine v → r₀.Settled v) →
    ∀ {V : Type} (M : Meaning V) (vars : VarId → V), w.routine.trace M vars = r₀.trace M vars

theorem Faithful.step {r₀ : Routine} {w' : Work} (h : Faithful r₀ block (w.on r)) (V : s.Valid)
    (L : s.Linear block) (head : SameHead r s) (hvar : r.isReceiver var = false)
    (hthis : r.isReceiver this = true) (hstep : StripStep var this r s) :
    Faithful r₀ block (w'.on s) := by
  have head₀ : SameHead r₀ r := h.head
  have hstored : ∀ v, .stloc v ∈ s.ops → .stloc v ∈ r₀.ops := fun v hv =>
    h.stored v (hstep.stored hv)
  refine ⟨V, L, head₀.trans head, hstored, fun v hv hs => ?_, fun hs V M vars => ?_⟩
  · exact hstep.settled hthis head ((head₀.isReceiver v).trans hv) (h.settled v hv hs)
  · -- the alias is one of those that are stripped in the end
    have hgone : Routine.Stripped r₀ s var := ⟨h.stored var hstep.stripped.1, hstep.stripped.2⟩
    have hvar₀ : r₀.isReceiver var = false := (head₀.isReceiver var).symm.trans hvar
    have hsettled : r.Settled var := h.settled var hvar₀ (hs var hgone)
    refine (hstep.trace_eq hthis hvar hsettled M vars).trans (h.trace (fun v hv => hs v ?_) M vars)
    exact ⟨hv.1, fun hmem => hv.2 (hstep.stored hmem)⟩

theorem visit_faithful {r₀ : Routine}
    (hidle : ∀ block index options w, ctx.inliner block index options w = .ok 0 w) :
    Advances block (visit ctx block) fun _ => Faithful r₀ block := by
  intro w r index inst h hi
  have L : r.Linear block := h.linear
  refine (visit_strips hidle h.valid L hi).mono ?_
  rintro next w' s (⟨rfl, hs⟩ | ⟨rfl, V', L', head, var, this, hvar, hthis, hstep⟩)
  · obtain rfl : s = r := hs
    exact ⟨⟨h.valid, h.linear, h.head, h.stored, h.settled, h.trace⟩, length_sub_succ_lt hi⟩
  · refine ⟨h.step V' L' head hvar hthis hstep, ?_⟩
    have L' : s.Linear block := L'
    have hlength : s.code.length + 1 = r.code.length := hstep.length
    have hlt : next < (r.instructions block).length := (List.getElem?_eq_some_iff.mp hi).1
    show (s.instructions block).length - next < (r.instructions block).length - next
    rw [L.instructions, List.length_map] at hlt ⊢
    rw [L'.instructions, List.length_map]
    omega

theorem run_faithful (hidle : ∀ block index options w, ctx.inliner block index options w = .ok 0 w)
    (V : r.Valid) (hline : r.StraightLine block) :
    Ends (pass.run ctx) (w.on r) fun _ => Faithful r block := by
  have hstart : Faithful r block (w.on r) :=
    ⟨V, hline.linear V, SameHead.refl _, fun _ h => h, fun _ _ h => h, fun _ _ _ _ => rfl⟩
  refine Ends.bind (Ends.routine ?_)
  split
  · refine scanControlFlow_ends (fun w' s b h hc hkind => ?_) hstart
    have V' : s.Valid := h.valid
    have L : s.Linear block := h.linear
    obtain rfl := L.eq_block V'.forest V' hc (isBlock_of_blockKind? hkind)
    exact (scan_ends (visit_faithful hidle) h).mono fun _ _ _ ⟨_, hend, _⟩ => hend
  · exact Ends.pure hstart

/-- The pass that strips receiver aliases comes to its end on straight-line code. If each
    variable that it strips is loaded only after its store, and no receiver is stored between
    that store and a load of the variable, it keeps the trace, from every environment and under
    every meaning of the operations. -/
theorem run_keeps_trace (ctx : Context) (hreach : Reachable w.routine)
    (hvalid : w.routine.validate = .ok ()) (hline : w.routine.StraightLine block)
    (hidle : ∀ block index options w, ctx.inliner block index options w = .ok 0 w) :
    ∃ w', pass.run ctx w = .ok () w' ∧
      ((∀ v, Routine.Stripped w.routine w'.routine v → w.routine.Settled v) →
        ∀ {V : Type} (M : Meaning V) (vars : VarId → V),
          w'.routine.trace M vars = w.routine.trace M vars) := by
  have V := (Routine.valid_iff hreach).mp hvalid
  obtain ⟨_, w', hrun, hend⟩ : Ends (pass.run ctx) w _ := run_faithful hidle V hline
  exact ⟨w', hrun, hend.trace⟩

/-! ## Calls through an alias -/

namespace Sample

def draw : CallSite where
  kind := .call
  method := ⟨⟨0x06000002⟩, "Draw", .widget, .widget, 1, 0x10⟩

/-- The calls that declare `this` and an alias of it and append `stloc alias(ldloc this)`. -/
def store : List Primitive :=
  [ .declare .receiver 0 "this" .widget,
    .declare .localSlot 0 "<>c__CompilerGenerated_this" .widget, .newBlock ⟨0⟩ .controlFlow,
    .load ⟨0⟩, .create (.stloc ⟨1⟩) [⟨2⟩], .push ⟨1⟩ ⟨3⟩]

/-- The calls that append `stloc this(ldnull)`. -/
def clear : List Primitive := [.leaf .ldnull rfl, .create (.stloc ⟨0⟩) [⟨4⟩], .push ⟨1⟩ ⟨5⟩]

/-- The calls that append `call Draw(ldloc alias)`, where a given number of nodes exist. -/
def call (size : Nat) : List Primitive :=
  [.load ⟨1⟩, .create (.call draw) [⟨size⟩], .push ⟨1⟩ ⟨size + 1⟩]

def build (calls : List Primitive) : Routine :=
  calls.foldl Primitive.after (Routine.empty ⟨0x06000001⟩ "Paint")

def context : Context := { settings := {}, inliner := Inliner.idle }

end Sample

/-- A store of the alias and a call on it become a call on the receiver. -/
theorem trace_of_call :
    let r := Sample.build (Sample.store ++ Sample.call 4)
    r.ops = [.ldloc ⟨0⟩, .stloc ⟨1⟩, .ldloc ⟨1⟩, .call Sample.draw] ∧
    ∃ w', pass.run Sample.context { routine := r } = .ok () w' ∧
      w'.routine.ops = [.ldloc ⟨0⟩, .call Sample.draw] ∧
      ∀ {V : Type} (M : Meaning V) (vars : VarId → V),
        w'.routine.trace M vars = r.trace M vars := by
  intro r
  have hops : r.ops = [.ldloc ⟨0⟩, .stloc ⟨1⟩, .ldloc ⟨1⟩, .call Sample.draw] := by
    decide +kernel
  have hreach : Reachable r := (Reachable.empty _ _).after _
  have hline : r.StraightLine ⟨1⟩ := by decide +kernel
  obtain ⟨w', hrun, htrace⟩ := run_keeps_trace (w := { routine := r }) Sample.context hreach
    (by decide +kernel) hline fun _ _ _ _ => rfl
  obtain rfl := PassM.after_of_ok hrun
  refine ⟨hops, _, hrun, by decide +kernel, fun M vars => htrace (fun v hv => ?_) M vars⟩
  obtain rfl : v = ⟨1⟩ := by simpa [hops] using hv.1
  refine ⟨by rw [hops]; decide, fun x _ hl => ?_⟩
  -- there is one store only
  have hle := (hl.filter fun op => op.use?.any (·.1 == .store)).length_le
  rw [hops] at hle
  exact absurd hle (by simp [Op.use?])

/-- With `stloc this(ldnull)` between the store of the alias and the call, the call is made on
    null afterwards. -/
theorem trace_changes_on_receiver_store :
    ∃ (w w' : Work) (block : NodeId), Reachable w.routine ∧ w.routine.validate = .ok () ∧
      w.routine.StraightLine block ∧ pass.run Sample.context w = .ok () w' ∧
      (∀ v, Routine.Stripped w.routine w'.routine v → ¬ [.ldloc v, .stloc v] <+ w.routine.ops) ∧
      ∃ (M : Meaning Nat) (vars : VarId → Nat), w'.routine.trace M vars ≠ w.routine.trace M vars := by
  let r := Sample.build (Sample.store ++ Sample.clear ++ Sample.call 6)
  have hreach : Reachable r := (Reachable.empty _ _).after _
  have hline : r.StraightLine ⟨1⟩ := by decide +kernel
  have hvalid : r.validate = .ok () := by decide +kernel
  obtain ⟨_, w', hrun, _⟩ : Ends (pass.run Sample.context) { routine := r } _ :=
    run_faithful (w := { routine := r }) (fun _ _ _ _ => rfl) ((Routine.valid_iff hreach).mp hvalid)
      hline
  obtain rfl := PassM.after_of_ok hrun
  refine ⟨{ routine := r }, _, ⟨1⟩, hreach, hvalid, hline, hrun, fun v hv => ?_,
    ⟨fun _ => 0, 0, 0, fun _ => 0⟩, fun v => if v = ⟨0⟩ then 1 else 0, by decide +kernel⟩
  have hops : r.ops = [.ldloc ⟨0⟩, .stloc ⟨1⟩, .ldnull, .stloc ⟨0⟩, .ldloc ⟨1⟩, .call Sample.draw] :=
    by decide +kernel
  obtain rfl | rfl : v = ⟨1⟩ ∨ v = ⟨0⟩ := by simpa [hops] using hv.1
  · show ¬ _ <+ r.ops
    rw [hops]
    decide
  · exact absurd (by decide +kernel) hv.2

end Alias

end CilFold
