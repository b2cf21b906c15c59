/-
  Stripping receiver aliases is one substitution. A visit that finds an alias substitutes a
  receiver for it (`Substituted`). This may make the next instruction an alias that was none at
  the start; but a receiver is never an alias, so that the substitutions of all visits are one
  in the tree of the start (`Collapsed.strip`), and what a visit finds to be an alias is, at the
  start, an alias of a receiver or of an alias that was stripped before (`AliasOf`).
-/
import Mathlib.Algebra.BigOperators.Group.Finset.Basic
import CilFold.Proofs.Thinning
import CilFold.Proofs.Marks
import CilFold.Proofs.Absorption
import CilFold.Proofs.Stripping

namespace CilFold

open Routine PassM

namespace EventLog

theorem count_append (es es' : List Event) (kind : EventKind) :
    count ⟨es ++ es'⟩ kind = count ⟨es⟩ kind + count ⟨es'⟩ kind := by
  simp only [count, ofKind, List.filter_append, List.length_append]

/-- How many events there are of each kind where all are of one. -/
theorem count_of_forall {es : List Event} {kind : EventKind} (h : ∀ e ∈ es, e.kind = kind)
    (kind' : EventKind) : count ⟨es⟩ kind' = if kind' = kind then es.length else 0 := by
  unfold count ofKind
  split_ifs with hk
  · rw [List.filter_eq_self.mpr fun e he => by rw [h e he, hk, beq_self_eq_true]]
  · rw [List.filter_eq_nil_iff.mpr fun e he hb => hk ((beq_iff_eq.mp hb).symm.trans (h e he)),
      List.length_nil]

end EventLog

namespace Alias

variable {w₀ w : Work} {r s : Routine} {block inst load n p receiver : NodeId}
  {var this : VarId} {index : Nat} {rest : List NodeId} {e : Event} {ctx : Context}
  {settings : Settings} {S : Finset VarId} {ρ : VarId → Option VarId}

/-! ## One alias -/

/-- One variable has been substituted for another in the whole tree. -/
structure Substituted (var this : VarId) (r s : Routine) : Prop extends Framed r s where
  valid : s.Valid
  head : SameHead r s
  parent : ∀ k, r.isAlive k = true → s.isAlive k = true → s.parent? k = r.parent? k
  uses : ∀ v, v ≠ this → ∀ kind k,
    s.use? k = some (kind, v) ↔ v ≠ var ∧ r.use? k = some (kind, v)
  marked : ∀ k, r.isConnected k = true → s.isAlive k = true →
    r.marked s k = (r.marked r k).strip (single var this)

/-- How many events of each kind report that the aliases have been stripped. -/
def reports (r : Routine) (S : Finset VarId) : EventKind → Nat
  | .instructionRemoved => S.card
  | .loadReplaced => ∑ a ∈ S, (r.loads a).length
  | _ => 0

/-- What holds while the loads of an alias are replaced: the loads still to come are those that
    the alias has, and a substitution cannot tell how many have been replaced. -/
structure Rerouting (w₀ : Work) (var this : VarId) (rest : List NodeId) (w : Work) : Prop
    extends Framed w₀.routine w.routine where
  head : SameHead w₀.routine w.routine
  parent : ∀ k, w₀.routine.isAlive k = true → w.routine.isAlive k = true →
    w.routine.parent? k = w₀.routine.parent? k
  uses : ∀ v, v ≠ this → ∀ kind k, w.routine.use? k = some (kind, v) ↔
    w₀.routine.use? k = some (kind, v) ∧ (v = var → kind = .load → k ∈ rest)
  marked : ∀ k, w₀.routine.isConnected k = true → w.routine.isAlive k = true →
    (w₀.routine.marked w.routine k).strip (single var this) =
      (w₀.routine.marked w₀.routine k).strip (single var this)
  reported : ∃ es, w.log.events = w₀.log.events ++ es ∧ (∀ e ∈ es, e.kind = .loadReplaced) ∧
    es.length + rest.length = (w₀.routine.loads var).length

theorem Rerouting.start (V : r.Valid) {x : Variable} (hx : r.var? var = some x) :
    Rerouting (w.on r) var this (r.loads var) (w.on r) where
  toFramed := Framed.refl r
  head := SameHead.refl r
  parent _ _ _ := rfl
  uses v _ kind k := by
    refine (and_iff_left_of_imp fun huse hv hkind => ?_).symm
    subst hv hkind
    rw [loads, hx]
    exact ((V.uses v x hx .load).2 k).mpr huse
  marked _ _ _ := rfl
  reported := ⟨[], (List.append_nil _).symm, fun _ he => absurd he List.not_mem_nil,
    Nat.zero_add _⟩

/-- One load fewer is to be replaced. -/
theorem Rerouting.graft (h : Rerouting w₀ var this (load :: rest) (w.on r)) (hne : this ≠ var)
    (V : r.Valid) (hop : r.op? load = some (.ldloc var)) (hconn : r.isConnected load = true)
    (hnot : load ∉ rest) (G : Grafted r load p (.node n (.ldloc this) []) s)
    (he : e.kind = .loadReplaced) : Rerouting w₀ var this rest ((w.noted e).on s) := by
  have F := V.forest
  have hframed : Framed w₀.routine r := h.toFramed
  have T := G.thinned V hop
  have huses : ∀ v, v ≠ this → ∀ kind k, r.use? k = some (kind, v) ↔
      w₀.routine.use? k = some (kind, v) ∧ (v = var → kind = .load → k ∈ load :: rest) := h.uses
  have hload : r.use? load = some (.load, var) := use?_eq_of_op? hop hconn
  have hload₀ : w₀.routine.use? load = some (.load, var) :=
    ((huses var (Ne.symm hne) .load load).mp hload).1
  -- a node of the start that is alive is not below the load
  have hstays : ∀ k, w₀.routine.isAlive k = true → s.isAlive k = true →
      r.isAlive k = true ∧ ¬ r.Above load k := by
    intro k hk hs
    have hr : r.isAlive k = true := T.alive k
      (Nat.lt_of_lt_of_le (index_lt_of_isAlive hk) hframed.size) hs
    exact ⟨hr, (G.isAlive_iff F hr).mp hs⟩
  refine ⟨hframed.trans T.toFramed, h.head.trans G.head, fun k hk hs => ?_, fun v hv kind k => ?_,
    fun k hk hs => ?_, ?_⟩
  · obtain ⟨hr, hbelow⟩ := hstays k hk hs
    refine Eq.trans ?_ (h.parent k hk hr)
    exact (G.views k hr).parent.trans (if_neg (F.encloses_iff.not.mpr hbelow))
  · refine (G.use?_iff F hop hv).trans ?_
    rw [huses v hv kind k]
    constructor
    · rintro ⟨⟨huse, hin⟩, hk⟩
      exact ⟨huse, fun hvar hkind => (List.mem_cons.mp (hin hvar hkind)).resolve_left hk⟩
    · rintro ⟨huse, hin⟩
      refine ⟨⟨huse, fun hvar hkind => List.mem_cons_of_mem _ (hin hvar hkind)⟩, ?_⟩
      rintro rfl
      cases huse.symm.trans hload₀
      exact hnot (hin rfl rfl)
  · obtain ⟨hr, hbelow⟩ := hstays k (isAlive_of_isConnected hk) hs
    have hgraft : w₀.routine.marked s k = (w₀.routine.marked r k).plantAt (some load)
        (.node none (.ldloc this) []) := G.marked F hframed.size (index_lt_of_use? hload₀) hr hbelow
    refine Eq.trans ?_ (h.marked k hk hr)
    show (w₀.routine.marked s k).strip _ = (w₀.routine.marked r k).strip _
    rw [hgraft]
    refine Tree.strip_plantAt hne fun u hu hl => ?_
    obtain ⟨y, hy, _, rfl⟩ := F.exists_of_mem_marked hr hu
    obtain ⟨hyl, _⟩ := origin_eq_some.mp ((Tree.label_map _ y).symm.trans hl)
    rw [Tree.op_map]
    exact Option.some.inj (hy.op?.symm.trans (hyl ▸ hop))
  · obtain ⟨es, hes, hkind, hlength⟩ := h.reported
    have hes : w.log.events = w₀.log.events ++ es := hes
    refine ⟨es ++ [e], ?_, fun e' he' => ?_, ?_⟩
    · show w.log.events ++ [e] = _
      rw [hes, List.append_assoc]
    · rcases List.mem_append.mp he' with he' | he'
      · exact hkind e' he'
      · rw [List.mem_singleton.mp he']
        exact he
    · rw [← hlength, List.length_append, List.length_singleton, List.length_cons]
      omega

section Removal

variable (h : Rerouting w₀ var this [] (w.on r)) (hne : this ≠ var) (V : r.Valid)
  (hc : r.isConnected block = true) (hi : (r.children block)[index]? = some inst)
  (hstore : r.Holds (.node inst (.stloc var) [.node receiver (.ldloc this) []]))
  (hcases : ∀ kind k, w₀.routine.use? k = some (kind, var) → kind = .load ∨ k = inst)
include h hne V hc hi hstore hcases

/-- When no load of the alias is left and its store goes, only uses of other variables stay. -/
theorem Rerouting.uses_deleteAt {v : VarId} (hv : v ≠ this) (kind : UseKind) (k : NodeId) :
    (r.deleteAt block index inst).use? k = some (kind, v) ↔
      v ≠ var ∧ w₀.routine.use? k = some (kind, v) := by
  have F := V.forest
  have hp := F.parent?_of_mem (List.mem_of_getElem? hi)
  have huses : r.use? k = some (kind, v) ↔
    w₀.routine.use? k = some (kind, v) ∧ (v = var → kind = .load → k ∈ []) := h.uses v hv kind k
  rw [F.use?_deleteAt hp]
  split_ifs with henc
  · refine ⟨fun h => (nomatch h), fun ⟨hvar, huse⟩ => ?_⟩
    -- the nodes of the store use the variable and the receiver
    have huse' := huses.mpr ⟨huse, fun he => absurd he hvar⟩
    have habove := F.encloses_iff.mp henc
    have hconn : r.isConnected k = true :=
      (F.isConnected_of_above habove).trans ((F.shared hp).trans hc)
    have hmem := (F.mem_labels hstore).mpr habove
    obtain rfl | rfl : k = inst ∨ k = receiver := by simpa [Tree.mem_labels_node] using hmem
    · cases huse'.symm.trans (use?_eq_of_op? hstore.op? hconn)
      exact absurd rfl hvar
    · have hload := (hstore.operand (List.mem_singleton_self _)).op?
      cases huse'.symm.trans (use?_eq_of_op? hload hconn)
      exact absurd rfl hv
  · rw [huses]
    constructor
    · rintro ⟨huse, hin⟩
      refine ⟨?_, huse⟩
      rintro rfl
      rcases hcases kind k huse with rfl | rfl
      · exact absurd (hin rfl rfl) List.not_mem_nil
      · exact henc (F.encloses_iff.mpr (Above.refl r k))
    · exact fun ⟨hvar, huse⟩ => ⟨huse, fun he => absurd he hvar⟩

/-- The tree is then that of the start with the substitution. -/
theorem Rerouting.marked_deleteAt (hb : r.isBlock block = true)
    (hk : w₀.routine.isConnected k = true) (hs : (r.deleteAt block index inst).isAlive k = true) :
    w₀.routine.marked (r.deleteAt block index inst) k =
      (w₀.routine.marked w₀.routine k).strip (single var this) := by
  have F := V.forest
  have hframed : Framed w₀.routine r := h.toFramed
  have huses : ∀ v, v ≠ this → ∀ kind k, r.use? k = some (kind, v) ↔
      w₀.routine.use? k = some (kind, v) ∧ (v = var → kind = .load → k ∈ []) := h.uses
  obtain ⟨hr, hbelow⟩ := (F.isAlive_deleteAt hi).mp hs
  have hinstc : r.isConnected inst = true :=
    (F.shared (F.parent?_of_mem (List.mem_of_getElem? hi))).trans hc
  have hinst := ((huses var (Ne.symm hne) .store inst).mp (use?_eq_of_op? hstore.op? hinstc)).1
  have hindex := index_lt_of_use? hinst
  rw [Routine.marked_deleteAt F (V.deleteAt hb hi).forest hi hindex hr
    (F.encloses_iff.not.mp hbelow)]
  refine Eq.trans (Tree.strip_eq_prune fun u hu => ?_).symm (h.marked k hk hr)
  obtain ⟨y, hy, hky, rfl⟩ := F.exists_of_mem_marked hr hu
  have hyuse := use?_eq_of_op? hy.op?
    ((F.isConnected_of_above hky).trans (hframed.connected k hk hr))
  rw [Tree.op_map, Tree.label_map, origin_eq_some, and_iff_left hindex]
  refine ⟨fun hload => ?_, fun hst => ?_, fun hl => ?_⟩
  · rw [hload] at hyuse
    exact absurd (((huses var (Ne.symm hne) .load y.label).mp hyuse).2 rfl rfl) List.not_mem_nil
  · rw [hst] at hyuse
    have hyuse := ((huses var (Ne.symm hne) .store y.label).mp hyuse).1
    exact (hcases .store y.label hyuse).resolve_left nofun
  · exact Option.some.inj (hy.op?.symm.trans (hl ▸ hstore.op?))

theorem Rerouting.substituted (hb : r.isBlock block = true) :
    Substituted var this w₀.routine (r.deleteAt block index inst) := by
  have F := V.forest
  have hframed : Framed w₀.routine r := h.toFramed
  have hdelete := Framed.deleteAt V hb hi hstore rfl (by simp [Op.isBlock, Op.isContainer])
  refine ⟨hframed.trans hdelete, V.deleteAt hb hi,
    h.head.trans (sameHead_deleteAt r block index inst), fun k hk hs => ?_,
    fun v hv => h.uses_deleteAt hne V hc hi hstore hcases hv,
    fun k => h.marked_deleteAt hne V hc hi hstore hcases hb⟩
  obtain ⟨hr, hbelow⟩ := (F.isAlive_deleteAt hi).mp hs
  refine Eq.trans ?_ (h.parent k hk hr)
  have view := views_deleteAt F (F.parent?_of_mem (List.mem_of_getElem? hi)) index k
  exact view.parent.trans (if_neg hbelow)

end Removal

/-- A visit that strips an alias. -/
structure Strip (settings : Settings) (inst : NodeId) (var this : VarId) (w w' : Work) :
    Prop where
  store : ∃ receiver,
    w.routine.Holds (.node inst (.stloc var) [.node receiver (.ldloc this) []])
  candidate : w.routine.isCandidate settings var = true
  receiver : w.routine.isReceiver this = true
  substituted : Substituted var this w.routine w'.routine
  reported : ∃ es, w'.log.events = w.log.events ++ es ∧
    ∀ kind, EventLog.count ⟨es⟩ kind = reports w.routine {var} kind

/-- The events of a visit. -/
theorem Rerouting.reports_of_note (h : Rerouting w₀ var this [] w)
    (he : e.kind = .instructionRemoved) : ∃ es, (w.noted e).log.events = w₀.log.events ++ es ∧
      ∀ kind, EventLog.count ⟨es⟩ kind = reports w₀.routine {var} kind := by
  obtain ⟨es, hes, hkinds, hlength⟩ := h.reported
  refine ⟨es ++ [e], ?_, fun kind => ?_⟩
  · show w.log.events ++ [e] = _
    rw [hes, List.append_assoc]
  · have hlast : ∀ e' ∈ [e], e'.kind = .instructionRemoved := by simpa using he
    rw [EventLog.count_append, EventLog.count_of_forall hkinds, EventLog.count_of_forall hlast]
    cases kind <;> simp [reports, ← hlength]

section Idle

variable (hidle : ∀ block index options w, ctx.inliner block index options w = .ok 0 w)
include hidle

/-- A visit goes on, or strips an alias. -/
theorem visit_substitutes (V : r.Valid) (hc : r.isConnected block = true)
    (hi : (r.instructions block)[index]? = some inst) :
    Ends (visit ctx block index inst) (w.on r) fun next w' =>
      next = index + 1 ∧ w' = w.on r ∨
      next = index ∧
        (w'.routine.instructions block).length - index < (r.instructions block).length - index ∧
        ∃ var this, Strip ctx.settings inst var this (w.on r) w' := by
  refine Ends.bind (Ends.routine ?_)
  cases ha : r.alias? ctx.settings inst with
  | none => exact Ends.pure (.inl ⟨rfl, rfl⟩)
  | some pair =>
    obtain ⟨var, receiver⟩ := pair
    obtain ⟨this, hstore, hvar, hthis⟩ := (alias?_eq_some V.forest).mp ha
    obtain ⟨x, hx, _, _, hstores, haddresses⟩ := isCandidate_eq_true.mp hvar
    have hne : this ≠ var := by
      rintro rfl
      rw [not_receiver_of_candidate hvar] at hthis
      cases hthis
    obtain ⟨_, hir⟩ := getElem?_instructions hi
    have hinstc : r.isConnected inst = true :=
      (V.forest.shared (V.forest.parent?_of_mem (List.mem_of_getElem? hir))).trans hc
    have hinst : r.use? inst = some (.store, var) := use?_eq_of_op? hstore.op? hinstc
    have hreplacing : Replacing (w.on r) block index (r.instructions block).length
        (.node inst (.stloc var) [.node receiver (.ldloc this) []]) var (r.loads var) (w.on r) :=
      ⟨⟨Scanned.start ⟨V, Logged.refl _⟩ hc, hi, rfl, hstore⟩, V.nodup_loads var,
        fun load hl => V.op?_of_mem_loads hl⟩
    refine (replaceLoads_ends (I := Rerouting (w.on r) var this) hne
      (fun load rest p n w e q s h hreplacing G he => ?_) (Rerouting.start V hx)
      hreplacing).andThen fun _ w' s ⟨hrerouting, h'⟩ => ?_
    · obtain ⟨hop, hconn⟩ := hreplacing.loads load List.mem_cons_self
      exact h.graft hne hreplacing.valid hop hconn (List.nodup_cons.mp hreplacing.nodup).1 G he
    · have V' : s.Valid := h'.valid
      have hi' : (s.instructions block)[index]? = some inst := h'.at_index
      have hholds : s.Holds (.node inst (.stloc var) [.node receiver (.ldloc this) []]) := h'.holds
      obtain ⟨hb, hchild⟩ := getElem?_instructions hi'
      have hc' : s.isConnected block = true := h'.stays (isAlive_of_isBlock hb)
      refine Ends.bind (Ends.noteNode fun e hkind hmethod => ?_)
      refine Ends.bind (Ends.bind (Ends.edit (Edit.remove_ok hb hchild) ?_))
      refine ⟨0, _, hidle _ _ _ _, Ends.stepBack (Nat.zero_le _) (.inr ⟨rfl, ?_, var, this, ?_⟩)⟩
      · have hlog := Logged.single (w := w') hkind hmethod
          (.removed hc' hi' (isContainer_of_op? hholds.op?))
        have hless := (h'.toScanned.vacated hi' ⟨block, .done⟩ hlog).2
        have hlength : (s.instructions block).length = (r.instructions block).length :=
          h'.length_eq
        rw [hlength] at hless
        exact hless
      · exact ⟨⟨receiver, hstore⟩, hvar, hthis, hrerouting.substituted hne V' hc' hchild hholds
          (fun kind k huse => V.use_cases hx hstores haddresses hinst huse) hb,
          hrerouting.reports_of_note hkind⟩

end Idle

/-! ## All aliases -/

/-- The variable is an alias of the receiver: it has a generated name, its address is not taken,
    and its only store is an instruction of a control-flow block and stores a load of the
    receiver or of another alias of it. -/
def AliasOf (settings : Settings) (r : Routine) (ρ : VarId → Option VarId) (a this : VarId) :
    Prop :=
  r.isReceiver this = true ∧ ∃ x block inst value source,
    r.var? a = some x ∧ x.isReceiver = false ∧ settings.isGenerated x.name = true ∧
      x.addresses = [] ∧ x.stores = [inst] ∧
    r.isConnected block = true ∧ r.blockKind? block = some .controlFlow ∧
      inst ∈ r.instructions block ∧
    r.Holds (.node inst (.stloc a) [.node value (.ldloc source) []]) ∧
      (source = this ∨ ρ source = some this)

/-- The routine `s` is `r` with a substitution of receivers for aliases of them. -/
structure Collapsed (settings : Settings) (r : Routine) (S : Finset VarId)
    (ρ : VarId → Option VarId) (s : Routine) : Prop extends Framed r s where
  valid : s.Valid
  head : SameHead r s
  parent : ∀ k, r.isAlive k = true → s.isAlive k = true → s.parent? k = r.parent? k
  uses : ∀ v, r.isReceiver v = false → ∀ kind k,
    s.use? k = some (kind, v) ↔ ρ v = none ∧ r.use? k = some (kind, v)
  marked : ∀ k, r.isConnected k = true → s.isAlive k = true →
    r.marked s k = (r.marked r k).strip ρ
  domain : ∀ a, a ∈ S ↔ (ρ a).isSome = true
  aliases : ∀ a this, ρ a = some this → AliasOf settings r ρ a this

theorem Collapsed.start (V : r.Valid) : Collapsed settings r ∅ (fun _ => none) r where
  toFramed := Framed.refl r
  valid := V
  head := SameHead.refl r
  parent _ _ _ := rfl
  uses _ _ _ _ := (and_iff_right rfl).symm
  marked _ _ _ := (Tree.strip_none _).symm
  domain a := by simp
  aliases _ _ h := nomatch h

namespace Collapsed

variable (h : Collapsed settings r S ρ s) (V₀ : r.Valid)
include h

theorem alive_of_later {q : Routine} {k : NodeId} (hq : Kept s q) (hk : r.isAlive k = true)
    (hqk : q.isAlive k = true) : s.isAlive k = true :=
  hq.alive k (Nat.lt_of_lt_of_le (index_lt_of_isAlive hk) h.size) hqk

include V₀

/-- The use-lists of the other variables are those of the start, in some order. -/
theorem uses_perm {v : VarId} {x y : Variable} (hv : r.isReceiver v = false) (hρ : ρ v = none)
    (hx : r.var? v = some x) (hy : s.var? v = some y) (kind : UseKind) :
    (y.uses kind).Perm (x.uses kind) := by
  refine (List.perm_ext_iff_of_nodup (h.valid.uses v y hy kind).1 (V₀.uses v x hx kind).1).mpr
    fun k => ?_
  rw [(h.valid.uses v y hy kind).2 k, (V₀.uses v x hx kind).2 k, h.uses v hv, and_iff_right hρ]

/-- The store of a load, followed back to the start: the load was one of the same variable, or
    of an alias of it. -/
theorem store_at_start (hinst : r.isConnected inst = true)
    (hstore : s.Holds (.node inst (.stloc var) [.node receiver (.ldloc this) []])) :
    ∃ value source, r.Holds (.node inst (.stloc var) [.node value (.ldloc source) []]) ∧
      (source = this ∨ ρ source = some this) := by
  have F₀ := V₀.forest
  have hlive := isAlive_of_isConnected hinst
  have hop : r.op? inst = some (.stloc var) :=
    (h.op inst hlive hstore.alive).symm.trans hstore.op?
  obtain ⟨value, hvalue⟩ := List.length_eq_one_iff.mp ((F₀.fits' hop rfl rfl).1 1 rfl)
  have hoperand : r.isAlive value = true :=
    isAlive_of_parent? (F₀.parent?_of_mem (hvalue ▸ List.mem_singleton_self value))
  have hheld : r.Holds (.node inst (.stloc var) [r.tree value]) :=
    .unary hop (by rw [hvalue, label_tree]) (F₀.holds_tree hoperand)
  have htree : s.tree inst = _ := h.valid.forest.tree_of_holds hstore
  have htree₀ : r.tree inst = _ := F₀.tree_of_holds hheld
  have hmarked := h.marked inst hinst hstore.alive
  rw [Routine.marked, Routine.marked, htree, htree₀, Tree.map_node, Tree.map_node,
    Tree.strip_of_none rfl] at hmarked
  have hoperands := (Tree.node.inj hmarked).2.2
  rw [List.map_singleton, List.map_singleton, List.filter_cons, List.filter_nil] at hoperands
  split_ifs at hoperands
  · rw [List.map_singleton, Tree.map_node] at hoperands
    obtain ⟨source, hload, hsource⟩ := Tree.load_of_strip (List.singleton_inj.mp hoperands).symm
    rw [Tree.op_map] at hload
    have hval : r.op? value = some (.ldloc source) := by
      have hvop := (F₀.holds_tree hoperand).op?
      rw [label_tree, hload] at hvop
      exact hvop
    exact ⟨value, source, .unary hop hvalue (.leaf hval (F₀.children_of_ldloc hval)), hsource⟩
  · cases hoperands

end Collapsed

section Step

variable {w' : Work} (h : Collapsed settings r S ρ w.routine) (V₀ : r.Valid)
  (hc : r.isConnected block = true) (hkind : r.blockKind? block = some .controlFlow)
  (hi : inst ∈ w.routine.instructions block) (hstrip : Strip settings inst var this w w')
include h V₀ hc hkind hi hstrip

/-- An alias that a visit strips has not been stripped before, and has as many loads as at the
    start. -/
theorem Collapsed.strip_alias : ρ var = none ∧
    (w.routine.loads var).length = (r.loads var).length ∧ AliasOf settings r ρ var this := by
  obtain ⟨receiver, hstore⟩ := hstrip.store
  obtain ⟨y, hy, hrecv, hname, hstores, haddresses⟩ := isCandidate_eq_true.mp hstrip.candidate
  have hnot : r.isReceiver var = false :=
    (h.head.isReceiver var).symm.trans (not_receiver_of_candidate hstrip.candidate)
  have hblock := h.isBlock hc (isBlock_of_blockKind? hkind)
  have hchild : w.routine.parent? inst = some block :=
    (h.valid.forest.parent?_of_mem_instructions hi).1
  have huse : w.routine.use? inst = some (.store, var) :=
    use?_eq_of_op? hstore.op? ((h.valid.forest.shared hchild).trans hblock.1)
  obtain ⟨hρ, huse₀⟩ := (h.uses var hnot .store inst).mp huse
  have hinst : r.isConnected inst = true := by
    obtain ⟨m, hm, hconn, _⟩ := use?_eq_some huse₀
    exact isConnected_iff.mpr ⟨m, hm, hconn⟩
  obtain ⟨x, hx, hbare⟩ : ∃ x, r.var? var = some x ∧ x.bare = y.bare := by
    have hhead := h.head.var? var
    rw [hy, Option.map_some] at hhead
    exact Option.map_eq_some_iff.mp hhead.symm
  have hperm := h.uses_perm V₀ hnot hρ hx hy
  have hstores₀ : x.stores = [inst] := by
    obtain ⟨only, honly⟩ := List.length_eq_one_iff.mp ((hperm .store).length_eq.symm.trans hstores)
    have honly : x.stores = [only] := honly
    have hmem : inst ∈ x.stores := ((V₀.uses var x hx .store).2 inst).mpr huse₀
    rw [honly, List.mem_singleton] at hmem
    rw [honly, hmem]
  have haddresses₀ : x.addresses = [] := by
    have hnil := hperm .address
    rw [show y.uses .address = [] from haddresses] at hnil
    exact List.perm_nil.mp hnil.symm
  have hmem : inst ∈ r.instructions block := by
    rw [instructions, if_pos (isBlock_of_blockKind? hkind), V₀.forest.mem_children_iff,
      ← h.parent inst (isAlive_of_isConnected hinst) hstore.alive]
    exact hchild
  obtain ⟨value, source, hheld, hsource⟩ := h.store_at_start V₀ hinst hstore
  refine ⟨hρ, ?_, (h.head.isReceiver this).symm.trans hstrip.receiver, x, block, inst, value,
    source, hx, (congrArg Variable.isReceiver hbare).trans hrecv, ?_, haddresses₀, hstores₀, hc,
    hkind, hmem, hheld, hsource⟩
  · rw [loads, loads, hx, hy]
    exact (hperm .load).length_eq
  · have hname₀ : x.bare.name = y.bare.name := congrArg Variable.name hbare
    exact (congrArg _ hname₀).trans hname

/-- A visit that strips an alias makes the substitution one for this alias, too. -/
theorem Collapsed.strip : Collapsed settings r (insert var S)
    (fun v => (ρ v).or (single var this v)) w'.routine := by
  obtain ⟨hρ, _, halias⟩ := h.strip_alias V₀ hc hkind hi hstrip
  have hsub := hstrip.substituted
  have hthis : r.isReceiver this = true := halias.1
  -- the receivers that have been put in are not substituted for
  have hkeep : ∀ v receiver, ρ v = some receiver → single var this receiver = none := by
    intro v receiver hv
    refine single_of_ne ?_
    rintro rfl
    have hrecv := (h.aliases v _ hv).1
    rw [← h.head.isReceiver, not_receiver_of_candidate hstrip.candidate] at hrecv
    cases hrecv
  have hwiden : ∀ {a b}, AliasOf settings r ρ a b →
      AliasOf settings r (fun v => (ρ v).or (single var this v)) a b := by
    rintro a b ⟨hb, x, block, inst, value, source, hx, hr, hn, ha, hs, hc, hk, hm, ht, hsource⟩
    refine ⟨hb, x, block, inst, value, source, hx, hr, hn, ha, hs, hc, hk, hm, ht, ?_⟩
    exact hsource.imp_right fun hv => Option.or_eq_some_iff.mpr (.inl hv)
  refine ⟨h.toFramed.trans hsub.toFramed, hsub.valid, h.head.trans hsub.head, fun k hk hs => ?_,
    fun v hv kind k => ?_, fun k hk hs => ?_, fun a => ?_, fun a receiver ha => ?_⟩
  · have hmid := h.alive_of_later hsub.toKept hk hs
    exact (hsub.parent k hmid hs).trans (h.parent k hk hmid)
  · have hne : v ≠ this := by
      rintro rfl
      rw [hthis] at hv
      cases hv
    rw [hsub.uses v hne, h.uses v hv, Option.or_eq_none_iff, single]
    by_cases hvar : v = var <;> simp [hvar]
  · have hmid := h.alive_of_later hsub.toKept (isAlive_of_isConnected hk) hs
    rw [marked_eq_map h.size, hsub.marked k (h.connected k hk hmid) hs, Tree.map_strip rfl,
      ← marked_eq_map h.size, h.marked k hk hmid, Tree.strip_strip hkeep]
  · rw [Finset.mem_insert, h.domain, Option.isSome_or, Bool.or_eq_true, or_comm, single]
    by_cases hvar : a = var <;> simp [hvar]
  · rcases Option.or_eq_some_iff.mp ha with hold | ⟨_, hnew⟩
    · exact hwiden (h.aliases a receiver hold)
    · unfold single at hnew
      split_ifs at hnew with hvar
      cases hnew
      exact hvar ▸ hwiden halias

end Step

/-! ## The pass -/

/-- The substitution that the pass has come to, with its report. -/
structure Reduced (settings : Settings) (w₀ : Work) (S : Finset VarId) (ρ : VarId → Option VarId)
    (w : Work) : Prop extends Collapsed settings w₀.routine S ρ w.routine where
  reported : ∃ es, w.log.events = w₀.log.events ++ es ∧
    ∀ kind, EventLog.count ⟨es⟩ kind = reports w₀.routine S kind

theorem Reduced.start (V : r.Valid) : Reduced settings (w.on r) ∅ (fun _ => none) (w.on r) where
  toCollapsed := Collapsed.start V
  reported := ⟨[], (List.append_nil _).symm, fun kind => by cases kind <;> rfl⟩

/-- One more alias has one more store and its loads. -/
theorem reports_insert (hnot : var ∉ S) (hloads : (s.loads var).length = (r.loads var).length)
    (kind : EventKind) : reports r (insert var S) kind = reports r S kind + reports s {var} kind := by
  cases kind <;>
    simp [reports, Finset.card_insert_of_notMem hnot, Finset.sum_insert hnot, hloads,
      Nat.add_comm]

theorem Reduced.strip {w' : Work} (h : Reduced settings w₀ S ρ w) (V₀ : w₀.routine.Valid)
    (hc : w₀.routine.isConnected block = true)
    (hkind : w₀.routine.blockKind? block = some .controlFlow)
    (hi : inst ∈ w.routine.instructions block) (hstrip : Strip settings inst var this w w') :
    Reduced settings w₀ (insert var S) (fun v => (ρ v).or (single var this v)) w' := by
  refine ⟨h.toCollapsed.strip V₀ hc hkind hi hstrip, ?_⟩
  obtain ⟨hρ, hloads, _⟩ := h.toCollapsed.strip_alias V₀ hc hkind hi hstrip
  have hnot : var ∉ S := by
    rw [h.domain, hρ]
    exact Bool.false_ne_true
  obtain ⟨es, hes, hcount⟩ := h.reported
  obtain ⟨es', hes', hcount'⟩ := hstrip.reported
  refine ⟨es ++ es', by rw [hes', hes, List.append_assoc], fun kind => ?_⟩
  rw [EventLog.count_append, hcount, hcount', reports_insert hnot hloads]

section Idle

variable (hidle : ∀ block index options w, ctx.inliner block index options w = .ok 0 w)
include hidle

theorem visit_reduces (V₀ : w₀.routine.Valid) (hc : w₀.routine.isConnected block = true)
    (hkind : w₀.routine.blockKind? block = some .controlFlow) :
    Advances block (visit ctx block) fun _ w => ∃ S ρ, Reduced ctx.settings w₀ S ρ w := by
  rintro w r index inst ⟨S, ρ, h⟩ hi
  have hblock := h.isBlock hc (isBlock_of_blockKind? hkind)
  refine (visit_substitutes hidle h.valid hblock.1 hi).mono ?_
  rintro next w' s (⟨rfl, hsame⟩ | ⟨rfl, hless, var, this, hstrip⟩)
  · rw [hsame]
    exact ⟨⟨S, ρ, h⟩, length_sub_succ_lt hi⟩
  · exact ⟨⟨_, _, h.strip V₀ hc hkind (List.mem_of_getElem? hi) hstrip⟩, hless⟩

theorem run_reduces (V : r.Valid) :
    Ends (pass.run ctx) (w.on r) fun _ w' => ∃ S ρ, Reduced ctx.settings (w.on r) S ρ w' := by
  have V₀ : (w.on r).routine.Valid := V
  refine Ends.bind (Ends.routine ?_)
  split
  · refine (scanControlFlow_each (I := fun todo w' => (∀ b ∈ todo, b ∈ r.flowBlocks) ∧
      ∃ S ρ, Reduced ctx.settings (w.on r) S ρ w') V (fun _ _ ⟨_, _, _, h⟩ => h.toFramed)
      (fun block todo w' s ⟨hflow, h⟩ => ?_) ⟨fun _ hb => hb, ∅, _, Reduced.start V⟩).mono
      fun _ _ _ h => h.2
    obtain ⟨hc, hkind⟩ := V.mem_flowBlocks.mp (hflow block List.mem_cons_self)
    exact (scan_ends (visit_reduces hidle V₀ hc hkind) h).mono
      fun _ _ _ ⟨_, hend, _⟩ => ⟨fun b hb => hflow b (List.mem_cons_of_mem _ hb), hend⟩
  · exact Ends.pure ⟨∅, _, Reduced.start V⟩

end Idle

/-- Without inlining the pass is one substitution: a set of aliases of receivers is chosen, each
    with the receiver it is an alias of, and in the tree the only store of each of them goes and
    all loads of it, wherever they are, become fresh loads of the receiver. All other nodes stay
    where they are. None of the aliases is used afterwards, and the log gets one removal for
    each of them, one replacement for each load they had, and no other event. -/
theorem run_substitutes (hreach : Reachable w.routine) (hvalid : w.routine.validate = .ok ())
    (hidle : ∀ block index options w, ctx.inliner block index options w = .ok 0 w) :
    ∃ (w' : Work) (es : List Event) (S : Finset VarId) (ρ : VarId → Option VarId),
      pass.run ctx w = .ok () w' ∧
      (∀ a, a ∈ S ↔ (ρ a).isSome = true) ∧
      (∀ a this, ρ a = some this → AliasOf ctx.settings w.routine ρ a this) ∧
      SameHead w.routine w'.routine ∧
      w.routine.marked w'.routine w'.routine.body =
        ((w.routine.tree w.routine.body).map some).strip ρ ∧
      (∀ a ∈ S, ∃ y, w'.routine.var? a = some y ∧ y.isUnused = true) ∧
      w'.log.events = w.log.events ++ es ∧
      EventLog.count ⟨es⟩ .instructionRemoved = S.card ∧
      EventLog.count ⟨es⟩ .loadReplaced = ∑ a ∈ S, (w.routine.loads a).length ∧
      ∀ kind, kind ≠ .instructionRemoved → kind ≠ .loadReplaced → EventLog.count ⟨es⟩ kind = 0 := by
  have V := (valid_iff hreach).mp hvalid
  obtain ⟨_, w', hrun, S, ρ, h⟩ : Ends (pass.run ctx) w fun _ w' =>
    ∃ S ρ, Reduced ctx.settings w S ρ w' := run_reduces (w := w) hidle V
  have hbody := V.forest.isConnected_body
  have hbody' := h.valid.forest.isConnected_body
  rw [h.body] at hbody'
  have hmarked := h.marked w.routine.body hbody (isAlive_of_isConnected hbody')
  rw [V.forest.marked_self (isAlive_of_isConnected hbody)] at hmarked
  obtain ⟨es, hes, hcount⟩ := h.reported
  refine ⟨w', es, S, ρ, hrun, h.domain, h.aliases, h.head, ?_, fun a ha => ?_, hes,
    hcount .instructionRemoved, hcount .loadReplaced, fun kind hremoved hreplaced => ?_⟩
  · rw [h.body]
    exact hmarked
  · obtain ⟨this, hthis⟩ := Option.isSome_iff_exists.mp ((h.domain a).mp ha)
    obtain ⟨_, x, _, _, _, _, hx, hrecv, _⟩ := h.aliases a this hthis
    obtain ⟨y, hy, _⟩ : ∃ y, w'.routine.var? a = some y ∧ y.bare = x.bare := by
      have hhead := h.head.var? a
      rw [hx, Option.map_some] at hhead
      exact Option.map_eq_some_iff.mp hhead
    refine ⟨y, hy, h.valid.isUnused hy fun k kind huse => ?_⟩
    have hnot : w.routine.isReceiver a = false := by
      rw [isReceiver, hx]
      exact hrecv
    rw [((h.uses a hnot kind k).mp huse).1] at hthis
    cases hthis
  · rw [hcount kind]
    cases kind <;> first | rfl | contradiction

namespace Spread

/-- The calls that declare `this` and two variables with generated names, and build
    `stloc a(ldloc this)`, `stloc b(ldloc a)` and a container with `ret(ldloc a)` in a block, and
    `ret(ldloc b)` in a dispatch block. -/
def calls : List Primitive :=
  [ .declare .receiver 0 "this" .void, .declare .localSlot 0 "<>c__CompilerGenerated_a" .void,
    .declare .localSlot 1 "<>c__CompilerGenerated_b" .void,
    .newBlock ⟨0⟩ .controlFlow, .newBlock ⟨0⟩ .switchDispatch,
    .load ⟨0⟩, .create (.stloc ⟨1⟩) [⟨3⟩], .push ⟨1⟩ ⟨4⟩,
    .load ⟨1⟩, .create (.stloc ⟨2⟩) [⟨5⟩], .push ⟨1⟩ ⟨6⟩,
    .newContainer, .push ⟨1⟩ ⟨7⟩, .newBlock ⟨7⟩ .controlFlow,
    .load ⟨1⟩, .create .ret [⟨9⟩], .push ⟨8⟩ ⟨10⟩,
    .load ⟨2⟩, .create .ret [⟨11⟩], .push ⟨2⟩ ⟨12⟩]

def routine : Routine := calls.foldl Primitive.after (Routine.empty ⟨0x06000001⟩ "Paint")

end Spread

set_option maxRecDepth 8000 in
/-- An alias and an alias of it, which are loaded in a nested container and in a dispatch block,
    are both substituted for. -/
theorem two_aliases_substituted : ∃ (w' : Work) (S : Finset VarId),
    pass.run { settings := {}, inliner := Inliner.idle } { routine := Spread.routine } =
      .ok () w' ∧
    S.card = 2 ∧ ∑ a ∈ S, (Spread.routine.loads a).length = 3 ∧
    (∀ a ∈ S, ∃ y, w'.routine.var? a = some y ∧ y.isUnused = true) ∧
    w'.routine.instructions ⟨1⟩ = [⟨7⟩] ∧ (w'.routine.loads ⟨0⟩).length = 2 := by
  let ctx : Context := { settings := {}, inliner := Inliner.idle }
  have hidle : ∀ block index options w, ctx.inliner block index options w = .ok 0 w :=
    fun _ _ _ _ => rfl
  have hreach : Reachable Spread.routine := (Reachable.empty _ _).after _
  obtain ⟨w', es, S, ρ, hrun, _, _, _, _, hunused, hes, hremoved, hreplaced, _⟩ :=
    run_substitutes (w := { routine := Spread.routine }) hreach (by decide +kernel) hidle
  obtain rfl : (pass.run ctx).after { routine := Spread.routine } = w' := after_of_ok hrun
  rw [List.nil_append] at hes
  refine ⟨_, S, hrun, ?_, ?_, hunused, by decide +kernel, by decide +kernel⟩
  · rw [← hremoved, ← hes]
    decide +kernel
  · rw [← hreplaced, ← hes]
    decide +kernel

end Alias

end CilFold
