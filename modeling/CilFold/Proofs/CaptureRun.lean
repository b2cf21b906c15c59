/-
  A run of the pass with an inliner that leaves everything as it is, followed from its start.

  An edit of the pass changes the instructions of a block of the input only by putting a fresh node
  into the place of one or by removing one. It makes no instruction store a new object, and it
  takes a block away only with an `unbox` that is stored in a field (`Traced`). So the first
  construction in a variable stands, holder and all, until the scan reaches it, and then it is
  replaced (`run_folds_first`). This takes the type away by which a later construction in the
  variable would be known (`second_left`), also when the one before it has only come up in the run
  (`left_behind_contender`). A construction in a stored `unbox` goes with its block, and a copy of
  it may be left, which the scan does not come to (`copy_left`).
-/
import Mathlib.Data.List.Flatten
import CilFold.Proofs.CaptureIdle
import CilFold.Proofs.CaptureNormal

namespace CilFold

open Routine PassM CapturedReceiver

/-- What is left to be scanned when an element in front of or behind the cursor goes. -/
theorem mem_drop_eraseIdx {α : Type} {l : List α} {a b : α} {next position : Nat}
    (hb : l[position]? = some b) (ha : a ∈ l.drop next) (hne : a ≠ b) :
    a ∈ (l.eraseIdx position).drop (if position < next then next - 1 else next) := by
  obtain ⟨i, hi⟩ := List.getElem?_of_mem ha
  rw [List.getElem?_drop] at hi
  have hip : next + i ≠ position := fun he => hne (Option.some.inj (hi.symm.trans (he ▸ hb)))
  refine List.mem_of_getElem? (i := if position < next then i else
    if next + i < position then i else i - 1) ?_
  rw [List.getElem?_drop, List.getElem?_eraseIdx]
  grind

/-- What is left of a list by a map that keeps some elements and replaces others stands in the list
    in the same order. -/
theorem sublist_of_filterMap {α : Type} {f : α → Option α} {l m : List α}
    (h : m.Sublist (l.filterMap f)) (hf : ∀ a, ∀ b ∈ m, f a = some b → a = b) : m.Sublist l := by
  induction l generalizing m with
  | nil => exact h
  | cons a l ih =>
    cases hfa : f a with
    | none =>
      rw [List.filterMap_cons_none hfa] at h
      exact (ih h hf).cons a
    | some b =>
      rw [List.filterMap_cons_some hfa] at h
      cases h with
      | cons _ h => exact (ih h hf).cons a
      | cons_cons _ h =>
        obtain rfl := hf a b List.mem_cons_self hfa
        exact (ih h fun c d hd => hf c d (List.mem_cons_of_mem _ hd)).cons_cons a

namespace Routine

variable {r s s' : Routine} {b id inst k owner p st : NodeId} {t u : Tree NodeId} {v : VarId}
  {become : NodeId → Option NodeId} {position : Nat} {c : Capture} {settings : Settings}

/-- Whether an instruction stores a new object in a variable. -/
def builds (r : Routine) (v : VarId) (inst : NodeId) : Bool :=
  (r.stloc? inst).any fun stored => stored.1 == v && (r.newobj? stored.2).isSome

theorem builds_iff : r.builds v inst = true ↔ ∃ value site, r.op? inst = some (.stloc v) ∧
    r.children inst = [value] ∧ r.op? value = some (.call site) ∧ site.isNewobj = true := by
  simp only [builds, Option.any_eq_true, Bool.and_eq_true, beq_iff_eq, Option.isSome_iff_exists]
  constructor
  · rintro ⟨⟨_, value⟩, hstore, rfl, ⟨method, args⟩, hnew⟩
    obtain ⟨hop, hc⟩ := stloc?_eq_some.mp hstore
    obtain ⟨site, hsite, _, hkind, _⟩ := newobj?_eq_some.mp hnew
    exact ⟨value, site, hop, hc, hsite, hkind⟩
  · rintro ⟨value, site, hop, hc, hsite, hkind⟩
    exact ⟨(v, value), stloc?_eq_some.mpr ⟨hop, hc⟩, rfl, (site.method, r.children value),
      newobj?_eq_some.mpr ⟨site, hsite, rfl, hkind, rfl⟩⟩

/-- Whether an instruction constructs a capture object in a variable, or stores another new object
    there but loads a holder that is a receiver. A wrapper around this load may collapse, and then
    the instruction may construct a capture object as well (`left_behind_contender`). -/
def contends (r : Routine) (settings : Settings) (v : VarId) (inst : NodeId) : Bool :=
  r.builds v inst && ((r.capture? settings inst).isSome || (r.tree inst).shown.any fun
    | .ldloc this => r.isReceiver this && r.isHolder settings this
    | _ => false)

/-- Whether a node is in an `unbox` that a `stobj` stores. -/
def inStoredUnbox (r : Routine) (id : NodeId) : Bool :=
  (r.lineage id).any fun unboxed =>
    match r.op? unboxed, (r.parent? unboxed).bind r.op? with
    | some (.unbox _), some (.stobj _) => true
    | _, _ => false

/-- An instruction of a routine constructs a capture object, or loads what was at first a holder
    and the receiver. -/
def Aspires (r : Routine) (settings : Settings) (s : Routine) (inst : NodeId) : Prop :=
  s.Constructs settings inst ∨ ∃ this, r.isReceiver this = true ∧
    r.isHolder settings this = true ∧ s.Mentions inst (.ldloc this)

theorem Forest.contends_of_aspires (F : r.Forest) (hbuilds : r.builds v inst = true)
    (h : r.Aspires settings r inst) : r.contends settings v inst = true := by
  rw [contends, hbuilds, Bool.true_and, Bool.or_eq_true]
  refine h.imp (fun h => ?_) ?_
  · rw [Option.isSome_iff_ne_none]
    exact fun hnone => F.capture?_eq_none.mp hnone h
  · rintro ⟨this, hthis, hholder, hm⟩
    have hshown := ((F.holds_tree hm.alive).mentions_iff F).mp (label_tree r inst ▸ hm)
    exact List.any_eq_true.mpr ⟨_, hshown, Bool.and_eq_true_iff.mpr ⟨hthis, hholder⟩⟩

theorem Forest.inStoredUnbox_of_above (F : r.Forest) {type owner : TypeDecl}
    (hop : r.op? id = some (.unbox type)) (hp : r.parent? id = some st)
    (hst : r.op? st = some (.stobj owner)) (habove : r.Above id k) : r.inStoredUnbox k = true := by
  refine List.any_eq_true.mpr ⟨id, F.mem_lineage.mpr habove, ?_⟩
  rw [hop, hp, Option.bind_some, hst]

/-- A block in a forwarding store is in the `unbox` that it stores. -/
theorem Valid.exists_unbox_of_forwards (V : r.Valid) {f : Forward}
    (hf : f ∈ (r.capturePlan c).forwards) (hb : r.isBlock b = true) (habove : r.Above f.store b) :
    ∃ unboxed type owner, r.op? unboxed = some (.unbox type) ∧
      r.parent? unboxed = some f.store ∧ r.op? f.store = some (.stobj owner) ∧
      r.Above unboxed b := by
  have F := V.forest
  have hframe : ∀ k, r.isFrame k = false → b ≠ k := by
    rintro k hk rfl
    cases hk.symm.trans (isFrame_of_isBlock hb)
  obtain ⟨a, load, owner, value, ht, hstand⟩ := V.holds_of_forwards hf
  have hvalue := ht.operand (List.mem_cons_of_mem _ (List.mem_singleton_self value))
  have hp : r.parent? value.label = some f.store :=
    F.parent?_of_mem (ht.children ▸ List.mem_cons_of_mem _ (List.mem_singleton_self _))
  have hin : r.Above value.label b := by
    rcases Tree.mem_labels_node.mp ((F.mem_labels ht).mpr habove) with he | ⟨y, hy, hin⟩
    · exact absurd he (hframe _ (not_isFrame_of_op? ht.op? rfl rfl))
    · rcases List.mem_cons.mp hy with rfl | hy
      · have haddress := ht.operand List.mem_cons_self
        exact absurd rfl (hframe b
          (not_isFrame_of_plain haddress (by simp [Op.isBlock, Op.isContainer]) hin))
      · obtain rfl := List.mem_singleton.mp hy
        exact (F.mem_labels hvalue).mp hin
  obtain ⟨k, op, ts⟩ := value
  unfold Capture.canStand at hstand
  split at hstand
  · next v _ heq =>
    -- a load has no block in it
    obtain rfl : op = .ldloc v := by injection heq
    have he := F.eq_of_above_leaf (F.children_of_ldloc hvalue.op?) hin
    exact absurd he (hframe _ (not_isFrame_of_op? hvalue.op? rfl rfl))
  · next type _ heq =>
    obtain rfl : op = .unbox type := by injection heq
    exact ⟨k, type, owner, hvalue.op?, hp, ht.op?, hin⟩
  · cases hstand

/-! ## Edits -/

theorem Kept.isAlive_between (h : Kept r s) (h' : Kept s s') (hr : r.isAlive k = true)
    (hs : s'.isAlive k = true) : s.isAlive k = true :=
  h'.alive k (Nat.lt_of_lt_of_le (index_lt_of_isAlive hr) h.size) hs

namespace Grafted

variable (G : Grafted s id p u s')
include G

/-- A graft puts no store of a new object in if the fresh tree is none. -/
theorem not_builds_new
    (hstore : ∀ v, u.op = .stloc v → ∀ z ∈ u.operands, ∀ site, z.op ≠ .call site) :
    ¬ s'.builds v u.label = true := by
  intro h
  obtain ⟨value, site, hop, hc, hsite, _⟩ := builds_iff.mp h
  rw [G.new.children] at hc
  obtain ⟨z, hz, rfl⟩ := List.map_eq_singleton_iff.mp hc
  have hmem : z ∈ u.operands := hz ▸ List.mem_singleton_self z
  exact hstore v (Option.some.inj (G.new.op?.symm.trans hop)) z hmem site
    (Option.some.inj ((G.new.operand hmem).op?.symm.trans hsite))

/-- Elsewhere it makes a store of a new object only by putting a call in. -/
theorem of_builds (F : s.Forest) (hk : s.isAlive k = true) (hcall : ∀ site, u.op ≠ .call site)
    (h : s'.builds v k = true) : s.builds v k = true := by
  obtain ⟨value, site, hop, hc, hsite, hkind⟩ := builds_iff.mp h
  have hout : ∀ {k op}, s.isAlive k = true → s'.op? k = some op → ¬ s.encloses id k = true :=
    fun hk hop => F.encloses_iff.not.mpr ((G.isAlive_iff F hk).mp (isAlive_of_op? hop))
  have hviews := G.views k hk
  rw [if_neg (hout hk hop), if_neg (hout hk hop)] at hviews
  have hvalue : value ≠ u.label := by
    rintro rfl
    exact hcall site (Option.some.inj (G.new.op?.symm.trans hsite))
  have hchildren : s.children k = [value] := by
    rw [hviews.children] at hc
    split_ifs at hc
    · rw [replace_eq_map (F.children_nodup k)] at hc
      obtain ⟨y, hy, hyv⟩ := List.map_eq_singleton_iff.mp hc
      split_ifs at hyv
      · exact absurd hyv.symm hvalue
      · rw [hy, hyv]
    · exact hc
  have hold : s.isAlive value = true :=
    F.alive_of_mem_children (hchildren ▸ List.mem_singleton_self value)
  have hsite' := (G.views value hold).op
  rw [if_neg (hout hold hsite)] at hsite'
  exact builds_iff.mpr ⟨value, site, hviews.op.symm.trans hop, hchildren,
    hsite'.symm.trans hsite, hkind⟩

/-- Elsewhere it makes an instruction aspire only by putting in a load of a holder, in the place of
    what loads it as well. -/
theorem of_aspires (F : s.Forest) (hk : s.isAlive k = true) (hne : k ≠ id) (ht : s.Holds t)
    (hl : t.label = id) (hshown : ∀ op ∈ u.shown, op.isAccess = true → op ∈ t.shown)
    (hcall : ∀ site, u.op ≠ .call site)
    (hload : ∀ v, u.op = .ldloc v → r.isHolder settings v = true)
    (hreceivers : ∀ v, s.isReceiver v = r.isReceiver v) (h : r.Aspires settings s' k) :
    r.Aspires settings s k := by
  have hmentions : ∀ op ∈ u.shown, op.isAccess = true → s.Mentions id op := fun op hop hacc =>
    hl ▸ (ht.mentions_iff F).mpr (hshown op hop hacc)
  rcases h with h | ⟨this, hthis, hholder, hm⟩
  · rcases h.of_graft G F hk hne hcall with h | ⟨hshows, v, hv, hrecv⟩
    · exact .inl h
    · have htop : .ldloc v ∈ u.shown := hv ▸ u.op_mem_shown
      obtain ⟨j, hj, hjop⟩ := hmentions _ htop rfl
      exact .inr ⟨v, hreceivers v ▸ hrecv, hload v hv, j, hshows.trans hj, hjop⟩
  · refine .inr ⟨this, hthis, hholder, G.mentions F hk (fun hm => ?_) ?_⟩
    · exact hmentions _ ((G.new.mentions_iff G.valid.forest).mp hm) rfl
    · rwa [if_neg hne]

end Grafted

section Removal

variable (F : s.Forest) (hi : (s.children owner)[position]? = some st)
include F hi

/-- A removal leaves the other instructions of a block where they are. -/
theorem Forest.instructions_deleteAt (hs : (s.deleteAt owner position st).isAlive b = true) :
    (s.deleteAt owner position st).instructions b =
      if b = owner then (s.instructions b).eraseIdx position else s.instructions b := by
  have hviews := views_deleteAt F (F.parent?_of_mem (List.mem_of_getElem? hi)) position b
  have hout := ((F.isAlive_deleteAt hi).mp hs).2
  rw [if_neg hout, if_neg hout] at hviews
  rw [instructions, isBlock_congr hviews.op, hviews.children, instructions]
  split_ifs <;> rfl

theorem Forest.filter_deleteAt (hs : (s.deleteAt owner position st).isAlive b = true) :
    (s.deleteAt owner position st).instructions b = (s.instructions b).filter (· != st) := by
  rw [F.instructions_deleteAt hi hs, instructions]
  split_ifs with ho hb hb
  · subst ho
    rw [eraseIdx_eq_erase (F.children_nodup b) hi, (F.children_nodup b).erase_eq_filter]
  · rfl
  · refine (List.filter_eq_self.mpr fun i hi' => ?_).symm
    rw [bne_iff_ne]
    rintro rfl
    exact ho (Option.some.inj ((F.parent?_of_mem hi').symm.trans
      (F.parent?_of_mem (List.mem_of_getElem? hi))))
  · rfl

theorem Forest.of_builds_deleteAt (hb : s.isBlock owner = true)
    (h : (s.deleteAt owner position st).builds v k = true) : s.builds v k = true := by
  obtain ⟨value, site, hop, hc, hsite, hkind⟩ := builds_iff.mp h
  have hviews := views_deleteAt F (F.parent?_of_mem (List.mem_of_getElem? hi)) position
  have hk := ((F.isAlive_deleteAt hi).mp (isAlive_of_op? hop)).2
  have hvalue := ((F.isAlive_deleteAt hi).mp (isAlive_of_op? hsite)).2
  rw [(hviews k).op, if_neg hk] at hop
  have hne : k ≠ owner := by
    rintro rfl
    rw [isBlock, hop] at hb
    cases hb
  rw [(hviews k).children, if_neg hk, if_neg hne] at hc
  rw [(hviews value).op, if_neg hvalue] at hsite
  exact builds_iff.mpr ⟨value, site, hop, hc, hsite, hkind⟩

theorem Forest.of_aspires_deleteAt (hb : s.isBlock owner = true)
    (h : r.Aspires settings (s.deleteAt owner position st) k) : r.Aspires settings s k := by
  have hviews := views_deleteAt F (F.parent?_of_mem (List.mem_of_getElem? hi)) position
  have head := sameHead_deleteAt s owner position st
  refine h.imp ?_ fun ⟨this, hthis, hholder, hm⟩ => ⟨this, hthis, hholder, hm.of_deleteAt F hi⟩
  rintro ⟨v, new, site, l, this, ht, hsite, hv, hthis⟩
  refine ⟨v, new, site, l, this, ht.congr fun x hx => ?_, hsite, head.isHolder v ▸ hv,
    head.isReceiver this ▸ hthis⟩
  have hplain := not_isFrame_of_plain ht (by simp [Op.isBlock, Op.isContainer]) hx
  obtain ⟨y, hy, rfl⟩ := List.mem_map.mp hx
  have hout := ((F.isAlive_deleteAt hi).mp (ht.subtree hy).alive).2
  have hop := (hviews y.label).op
  rw [if_neg hout] at hop
  have hne : y.label ≠ owner := by
    rintro rfl
    rw [isFrame_congr hop, isFrame_of_isBlock hb] at hplain
    cases hplain
  rw [hop, (hviews y.label).children, if_neg hout, if_neg hne]
  exact ⟨rfl, rfl⟩

end Removal

/-! ## The instructions of the input -/

/-- What a run has made of a routine; `become` gives what stands in the place of an instruction,
    if anything does. -/
structure Traced (r : Routine) (settings : Settings) (s : Routine)
    (become : NodeId → Option NodeId) : Prop extends Kept r s where
  body : s.body = r.body
  receivers : ∀ v, s.isReceiver v = r.isReceiver v
  holders : ∀ v, s.isHolder settings v = true → r.isHolder settings v = true
  parent : ∀ k p, r.parent? k = some p → s.isAlive k = true → s.parent? k = some p
  blocks : ∀ c, r.isConnected c = true → r.isContainer c = true → s.isAlive c = true →
    s.children c = r.children c
  instructions : ∀ b, r.isConnected b = true → r.isBlock b = true → s.isAlive b = true →
    s.instructions b = (r.instructions b).filterMap become
  fresh : ∀ k new, become k = some new → new = k ∨ r.nodes.size ≤ new.index
  builds : ∀ b, r.isConnected b = true → r.isBlock b = true → ∀ k ∈ s.instructions b, ∀ v,
    s.builds v k = true → r.builds v k = true ∧ (r.Aspires settings s k → r.Aspires settings r k)
  stays : ∀ b, r.isConnected b = true → r.isBlock b = true → r.inStoredUnbox b = false →
    s.isAlive b = true

namespace Traced

theorem refl (r : Routine) (settings : Settings) : Traced r settings r some where
  toKept := Kept.refl r
  body := rfl
  receivers _ := rfl
  holders _ h := h
  parent _ _ h _ := h
  blocks _ _ _ _ := rfl
  instructions _ _ _ _ := List.filterMap_some.symm
  fresh _ _ h := .inl (Option.some.inj h).symm
  builds _ _ _ _ _ _ h := ⟨h, fun h => h⟩
  stays _ hc _ _ := isAlive_of_isConnected hc

theorem retyped (h : Traced r settings s become) (hc : s.isHolder settings c.holder = true) :
    Traced r settings (c.retyped s) become where
  toKept := h.toKept.trans (Kept.retype c.holder c.receiverType)
  body := h.body
  receivers v := isReceiver_retyped.trans (h.receivers v)
  holders v hv := h.holders v (isHolder_of_retyped hc hv)
  parent := h.parent
  blocks := h.blocks
  instructions := h.instructions
  fresh := h.fresh
  builds b hconn hb k hk v hv := by
    refine (h.builds b hconn hb k hk v hv).imp_right fun hback hs => hback ?_
    exact hs.imp (·.of_retyped hc) fun ⟨this, hthis, hholder, hm⟩ =>
      ⟨this, hthis, hholder, hm.of_retyped⟩
  stays := h.stays

/-- An instruction of the input that is alive has its place in the block. -/
theorem mem_instructions (h : Traced r settings s become) (F : r.Forest) (F' : s.Forest)
    (hk : k ∈ r.instructions b) (halive : s.isAlive k = true) : k ∈ s.instructions b := by
  obtain ⟨i, hi⟩ := List.getElem?_of_mem hk
  obtain ⟨hb, hi⟩ := getElem?_instructions hi
  obtain ⟨hp, hb'⟩ := h.slot k b (F.parent?_of_mem (List.mem_of_getElem? hi)) hb halive
  rw [Routine.instructions, if_pos hb']
  exact F'.listed hp

/-- A node of the input that is an instruction of a block was one before, and nothing else has
    taken its place. -/
theorem become_eq (h : Traced r settings s become) (hb : r.isConnected b = true)
    (hblock : r.isBlock b = true) (hk : k ∈ s.instructions b) (hold : r.isAlive k = true) :
    k ∈ r.instructions b ∧ become k = some k := by
  obtain ⟨i, hi⟩ := List.getElem?_of_mem hk
  have halive := isAlive_of_isBlock (getElem?_instructions hi).1
  rw [h.instructions b hb hblock halive] at hk
  obtain ⟨j, hj, hjk⟩ := List.mem_filterMap.mp hk
  rcases h.fresh j k hjk with rfl | hsize
  · exact ⟨hj, hjk⟩
  · have := index_lt_of_isAlive hold
    omega

/-- What the input has of a block is in the order of the input. -/
theorem precedes (h : Traced r settings s become) (hb : r.isConnected b = true)
    (hblock : r.isBlock b = true) {i j : NodeId} {index : Nat}
    (hi : (s.instructions b)[index]? = some i)
    (hj : j ∈ (s.instructions b).drop (index + 1)) (hiold : r.isAlive i = true)
    (hjold : r.isAlive j = true) : [i, j].Sublist (r.instructions b) := by
  have hsub : [i, j].Sublist (s.instructions b) := by
    refine List.Sublist.trans ?_ (List.drop_sublist index _)
    rw [List.drop_eq_getElem?_toList_append, hi]
    exact (List.singleton_sublist.mpr hj).cons_cons i
  rw [h.instructions b hb hblock (isAlive_of_isBlock (getElem?_instructions hi).1)] at hsub
  refine sublist_of_filterMap hsub fun a k hk ha => ?_
  rcases h.fresh a k ha with rfl | hsize
  · rfl
  · have hold : r.isAlive k = true := by
      rcases List.mem_cons.mp hk with rfl | hk
      · exact hiold
      · exact List.mem_singleton.mp hk ▸ hjold
    have := index_lt_of_isAlive hold
    omega

/-- A container that is alive has the entry block it had. -/
theorem entry_eq {c : NodeId} (h : Traced r settings s become) (hconn : r.isConnected c = true)
    (hcontainer : r.isContainer c = true) (halive : s.isAlive c = true) :
    s.entry? c = r.entry? c := by
  unfold Routine.entry? Routine.blocks
  rw [isContainer_congr (h.op c (isAlive_of_isConnected hconn) halive),
    h.blocks c hconn hcontainer halive]

section Above

variable (h : Traced r settings s become) (V : r.Valid) (F : s.Forest)
include h V F

/-- What has a parent in the end and was connected had the same parent before. -/
theorem parent_back (hc : r.isConnected k = true) (hp : s.parent? k = some p) :
    r.parent? k = some p := by
  cases hr : r.parent? k with
  | none =>
    have hbody := (V.forest.isConnected_iff_above.mp hc).eq_of_top hr
    rw [← hbody, ← h.body, F.parent?_body] at hp
    cases hp
  | some q =>
    exact (h.parent k q hr (isAlive_of_parent? hp)).symm.trans hp

/-- What lies above a connected node did so before. -/
theorem above_back (habove : s.Above p k) (hc : r.isConnected k = true) : r.Above p k := by
  induction habove using Relation.ReflTransGen.head_induction_on with
  | refl => exact Above.refl r p
  | head hp _ ih =>
    have hr := h.parent_back V F hc hp
    exact Relation.ReflTransGen.head hr (ih ((V.forest.shared hr).symm.trans hc))

omit V in
/-- What lies above a node still does if the node is alive. -/
theorem above_stays (habove : r.Above p k) (hs : s.isAlive k = true) : s.Above p k := by
  induction habove using Relation.ReflTransGen.head_induction_on with
  | refl => exact Above.refl s p
  | @head k q hp _ ih =>
    have hq := h.parent k q hp hs
    obtain ⟨n, hn⟩ := F.exists_parent_node? hq
    exact Relation.ReflTransGen.head hq (ih (isAlive_of_node? hn))

end Above

/-- A block of the input that was in no stored `unbox` is in no forwarding store. -/
theorem not_above_of_forwards (h : Traced r settings s become) (V : r.Valid) (V' : s.Valid)
    {f : Forward} (hf : f ∈ (s.capturePlan c).forwards) (hc : r.isConnected b = true)
    (hb : r.isBlock b = true) (hnot : r.inStoredUnbox b = false) : ¬ s.Above f.store b := by
  intro habove
  have F := V.forest
  have hb' := (isBlock_congr (h.op b (isAlive_of_isConnected hc) (h.stays b hc hb hnot))).trans hb
  obtain ⟨unboxed, type, owner, hop, hp, hstore, hin⟩ :=
    V'.exists_unbox_of_forwards hf hb' habove
  have hin' := h.above_back V V'.forest hin hc
  have hunboxed : r.isConnected unboxed = true := (F.isConnected_of_above hin').symm.trans hc
  have hp' := h.parent_back V V'.forest hunboxed hp
  obtain ⟨n, hn⟩ := F.exists_parent_node? hp'
  have hop' := (h.op _ (isAlive_of_isConnected hunboxed) (isAlive_of_op? hop)).symm.trans hop
  have hstore' := (h.op _ (isAlive_of_node? hn) (isAlive_of_op? hstore)).symm.trans hstore
  cases (F.inStoredUnbox_of_above hop' hp' hstore' hin').symm.trans hnot

/-- A graft in the place of a tree without blocks, which puts no store of a new object in and loads
    no more than was there. -/
theorem graft (h : Traced r settings s become) (V : s.Valid) (G : Grafted s id p u s')
    (ht : s.Holds t) (hl : t.label = id) (hplain : t.Plain)
    (hshown : ∀ op ∈ u.shown, op.isAccess = true → op ∈ t.shown)
    (hcall : ∀ site, u.op ≠ .call site)
    (hstore : ∀ v, u.op = .stloc v → ∀ z ∈ u.operands, ∀ site, z.op ≠ .call site)
    (hload : ∀ v, u.op = .ldloc v → r.isHolder settings v = true) :
    Traced r settings s' fun k => (become k).map fun i => if i = id then u.label else i := by
  have F := V.forest
  have hid : s.isBlock id = false := by
    have hframe := not_isFrame_of_plain ht hplain (Tree.label_mem_labels t)
    rw [hl, isFrame, Bool.or_eq_false_iff] at hframe
    exact hframe.1
  have hmid : ∀ {k}, r.isAlive k = true → s'.isAlive k = true → s.isAlive k = true :=
    h.toKept.isAlive_between G.kept
  have hout : ∀ {k}, s.isAlive k = true → s'.isAlive k = true → ¬ s.encloses id k = true :=
    fun hk hs => F.encloses_iff.not.mpr ((G.isAlive_iff F hk).mp hs)
  have hinstructions : ∀ b, r.isConnected b = true → r.isBlock b = true → s'.isAlive b = true →
      s'.instructions b = (s.instructions b).map fun i => if i = id then u.label else i := by
    intro b hc hb hs
    have halive := hmid (isAlive_of_isConnected hc) hs
    exact G.instructions_eq_map F
      ((isBlock_congr (h.op b (isAlive_of_isConnected hc) halive)).trans hb)
      ((G.isAlive_iff F halive).mp hs)
  refine ⟨h.toKept.trans G.kept, G.head.body.trans h.body,
    fun v => (G.head.isReceiver v).trans (h.receivers v),
    fun v hv => h.holders v (G.head.isHolder v ▸ hv), fun k p' hp hs => ?_,
    fun c hc hcontainer hs => ?_, fun b hc hb hs => ?_, fun k new hnew => ?_,
    fun b hc hb k hk v hv => ?_, fun b hc hb hnot => ?_⟩
  · have hk := hmid (isAlive_of_parent? hp) hs
    rw [(G.views k hk).parent, if_neg (hout hk hs)]
    exact h.parent k p' hp hk
  · have halive := hmid (isAlive_of_isConnected hc) hs
    have hcp : c ≠ p := by
      rintro rfl
      have hplace := V.inPlace id c (h.connected c hc halive) G.place
      rw [hid, isContainer_congr (h.op c (isAlive_of_isConnected hc) halive), hcontainer] at hplace
      cases hplace
    rw [(G.views c halive).children, if_neg (hout halive hs), if_neg hcp]
    exact h.blocks c hc hcontainer halive
  · rw [hinstructions b hc hb hs, h.instructions b hc hb (hmid (isAlive_of_isConnected hc) hs),
      List.map_filterMap]
  · obtain ⟨i, hi, rfl⟩ := Option.map_eq_some_iff.mp hnew
    split_ifs
    · exact .inr (Nat.le_trans h.size (G.fresh _ u.label_mem_labels))
    · exact h.fresh k i hi
  · obtain ⟨j, hj⟩ := List.getElem?_of_mem hk
    rw [hinstructions b hc hb (isAlive_of_isBlock (getElem?_instructions hj).1)] at hk
    obtain ⟨i, hi, rfl⟩ := List.mem_map.mp hk
    split_ifs at hv with hne
    · exact absurd hv (G.not_builds_new hstore)
    · obtain ⟨n, hn⟩ := List.getElem?_of_mem hi
      obtain ⟨_, hn⟩ := getElem?_instructions hn
      have hold := F.alive_of_mem_children (List.mem_of_getElem? hn)
      rw [if_neg hne]
      refine (h.builds b hc hb i hi v (G.of_builds F hold hcall hv)).imp_right fun hback hs => ?_
      exact hback (G.of_aspires F hold hne ht hl hshown hcall hload h.receivers hs)
  · have halive := h.stays b hc hb hnot
    have hb' := (isBlock_congr (h.op b (isAlive_of_isConnected hc) halive)).trans hb
    refine (G.isAlive_iff F halive).mpr fun hin => ?_
    exact F.not_above_of_plain ht hplain (isFrame_of_isBlock hb') (hl ▸ hin)

/-- The removal of an instruction, which takes no block with it but those in an `unbox` that is
    stored. -/
theorem deleteAt (h : Traced r settings s become) (V : s.Valid) (hb : s.isBlock owner = true)
    (hi : (s.children owner)[position]? = some st)
    (hspared : ∀ b, r.isConnected b = true → r.isBlock b = true → r.inStoredUnbox b = false →
      ¬ s.Above st b) :
    Traced r settings (s.deleteAt owner position st) fun k => (become k).filter (· != st) := by
  have F := V.forest
  have hviews := views_deleteAt F (F.parent?_of_mem (List.mem_of_getElem? hi)) position
  have hkept := Kept.deleteAt F hi
  have head := sameHead_deleteAt s owner position st
  refine ⟨h.toKept.trans hkept, head.body.trans h.body,
    fun v => (head.isReceiver v).trans (h.receivers v),
    fun v hv => h.holders v (head.isHolder v ▸ hv), fun k p hp hs => ?_,
    fun c hc hcontainer hs => ?_, fun b hc hb hs => ?_, fun k new hnew => ?_,
    fun b hc hr k hk v hv => ?_, fun b hc hr hnot => ?_⟩
  · obtain ⟨halive, hout⟩ := (F.isAlive_deleteAt hi).mp hs
    rw [(hviews k).parent, if_neg hout]
    exact h.parent k p hp halive
  · obtain ⟨halive, hout⟩ := (F.isAlive_deleteAt hi).mp hs
    have hne : c ≠ owner := by
      rintro rfl
      have hcontainer' := isContainer_congr (h.op c (isAlive_of_isConnected hc) halive)
      rw [not_container_of_block hb, hcontainer] at hcontainer'
      cases hcontainer'
    rw [(hviews c).children, if_neg hout, if_neg hne]
    exact h.blocks c hc hcontainer halive
  · rw [F.filter_deleteAt hi hs, h.instructions b hc hb ((F.isAlive_deleteAt hi).mp hs).1,
      List.filter_filterMap]
  · exact h.fresh k new (Option.eq_some_of_filter_eq_some hnew)
  · obtain ⟨j, hj⟩ := List.getElem?_of_mem hk
    rw [F.filter_deleteAt hi (isAlive_of_isBlock (getElem?_instructions hj).1)] at hk
    refine (h.builds b hc hr k (List.mem_of_mem_filter hk) v
      (F.of_builds_deleteAt hi hb hv)).imp_right fun hback hs => hback ?_
    exact F.of_aspires_deleteAt hi hb hs
  · exact (F.isAlive_deleteAt hi).mpr
      ⟨h.stays b hc hr hnot, F.encloses_iff.not.mpr (hspared b hc hr hnot)⟩

end Traced

end Routine

/-! ## Stores that stay -/

/-- A store of what a constructor makes of a variable, or of the variable. -/
def Tree.Stores {α : Type} (t : Tree α) : Prop :=
  (∃ v, t.op = .stloc v) ∧
    ∀ y ∈ t.subtrees, y = t ∨ (∃ site, y.op = .call site) ∨ ∃ v, y.op = .ldloc v

theorem stores_constructionTree {c : Capture} {inst new : NodeId} {site : CallSite} {this : VarId} :
    (constructionTree c inst new site this).Stores :=
  ⟨⟨_, rfl⟩, by simp [Tree.mem_subtrees_node]⟩

theorem stores_copy {v this : VarId} {new load : NodeId} :
    (Tree.node new (.stloc v) [.node load (.ldloc this) []]).Stores :=
  ⟨⟨_, rfl⟩, by simp [Tree.mem_subtrees_node]⟩

namespace Routine

variable {r s s' : Routine} {b block id inst k owner p st : NodeId} {u : Tree NodeId}
  {become become' : NodeId → Option NodeId} {settings : Settings} {position : Nat} {c : Capture}
  {this : VarId} {op : Op} {P : NodeId → Prop}

/-- An edit that spares stores: those of some kinds stay as they are while they are alive, and some
    go with their block only. -/
structure Spares (s s' : Routine) (P : NodeId → Prop) : Prop where
  holds : ∀ t : Tree NodeId, s.Holds t → t.Stores → s'.isAlive t.label = true → s'.Holds t
  alive : ∀ k v p, P k → s.op? k = some (.stloc v) → s.parent? k = some p →
    s'.isAlive p = true → s'.isAlive k = true

theorem Grafted.spares (G : Grafted s id p u s') (F : s.Forest) (hop : s.op? id = some op)
    (hcall : ∀ site, op ≠ .call site) (hload : ∀ v, op ≠ .ldloc v)
    (hP : ∀ k v, P k → s.op? k = some (.stloc v) → k ≠ id) : Spares s s' P := by
  constructor
  · intro t ht hshape halive
    have hbelow := (G.isAlive_iff F ht.alive).mp halive
    refine G.holds_apart F ht (fun hp => ?_) hbelow
    have habove := ((F.mem_labels ht).mp hp).under G.place
    obtain ⟨y, hy, hl⟩ := List.mem_map.mp ((F.mem_labels ht).mpr habove)
    have hyop := (ht.subtree hy).op?
    rw [hl, hop, Option.some.injEq] at hyop
    rcases hshape.2 y hy with rfl | ⟨site, hsite⟩ | ⟨v, hv⟩
    · exact hbelow (hl ▸ Above.refl s y.label)
    · exact hcall site (hyop.trans hsite)
    · exact hload v (hyop.trans hv)
  · intro k v q hk hkop hq hs
    refine (G.isAlive_iff F (isAlive_of_op? hkop)).mpr fun habove => ?_
    obtain ⟨n, hn⟩ := F.exists_parent_node? hq
    exact (G.isAlive_iff F (isAlive_of_node? hn)).mp hs
      (habove.above_parent (hP k v hk hkop).symm hq)

theorem Forest.spares_deleteAt (F : s.Forest) (hi : (s.children owner)[position]? = some st)
    (hop : s.op? st = some op) (hstore : ∀ v, op ≠ .stloc v) (hcall : ∀ site, op ≠ .call site)
    (hload : ∀ v, op ≠ .ldloc v) : Spares s (s.deleteAt owner position st) P := by
  constructor
  · intro t ht hshape hs
    have hbelow := F.encloses_iff.not.mp ((F.isAlive_deleteAt hi).mp hs).2
    have hheld := F.holds_deleteAt hi ht hbelow
    rwa [Tree.prune_eq_self] at hheld
    intro a ha
    rw [beq_eq_false_iff_ne]
    rintro rfl
    obtain ⟨y, hy, rfl⟩ := List.mem_map.mp ha
    have hyop := (ht.subtree hy).op?
    rw [hop, Option.some.injEq] at hyop
    rcases hshape.2 y hy with rfl | ⟨site, hsite⟩ | ⟨v, hv⟩
    · obtain ⟨v, hv⟩ := hshape.1
      exact hstore v (hyop.trans hv)
    · exact hcall site (hyop.trans hsite)
    · exact hload v (hyop.trans hv)
  · intro k v q _ hkop hq hs
    refine (F.isAlive_deleteAt hi).mpr
      ⟨isAlive_of_op? hkop, F.encloses_iff.not.mpr fun habove => ?_⟩
    have hne : st ≠ k := by
      rintro rfl
      exact hstore v (Option.some.inj (hop.symm.trans hkop))
    exact ((F.isAlive_deleteAt hi).mp hs).2 (F.encloses_iff.mpr (habove.above_parent hne hq))

/-! ## First constructions -/

/-- The construction of a capture object in an entry block, with no other that contends for its
    variable before it in the order of the scan. -/
structure First (r : Routine) (settings : Settings) (block inst : NodeId) (c : Capture)
    (this : VarId) : Prop where
  entry : block ∈ r.entryBlocks
  mem : inst ∈ r.instructions block
  capture : r.capture? settings inst = some c
  load : r.ldloc? c.receiver = some this
  first : ∀ other ∈ r.entryBlocks.flatMap r.instructions, other ≠ inst →
    r.contends settings c.holder other = true →
    ¬ [other, inst].Sublist (r.entryBlocks.flatMap r.instructions)

/-- The construction stands, and will be known as one. -/
structure Waits (settings : Settings) (c : Capture) (inst : NodeId) (this : VarId) (s : Routine) :
    Prop where
  holds : ∃ new site, s.Holds (constructionTree c inst new site this) ∧
    site.isNewobj = true ∧ site.method.isConstructor = true
  holder : s.isHolder settings c.holder = true
  receiver : s.isReceiver this = true

/-- The construction is gone, and in its place, if the block is left, the receiver is stored. -/
def Redone (c : Capture) (block inst : NodeId) (this : VarId) (become : NodeId → Option NodeId)
    (s : Routine) : Prop :=
  s.isAlive inst = false ∧ (s.isAlive block = true → ∃ new load, become inst = some new ∧
    s.Holds (.node new (.stloc c.holder) [.node load (.ldloc this) []]))

theorem Waits.constructs (h : Waits settings c inst this s) : s.Constructs settings inst := by
  obtain ⟨new, site, ht, hsite⟩ := h.holds
  exact ⟨c.holder, new, site, c.receiver, this, ht, hsite, h.holder, h.receiver⟩

theorem Waits.alive (h : Waits settings c inst this s) : s.isAlive inst = true := by
  obtain ⟨_, _, ht, _⟩ := h.holds
  exact ht.alive

theorem First.waits (h : r.First settings block inst c this) (F : r.Forest) :
    Waits settings c inst this r := by
  obtain ⟨new, site, that, x, y, ht, hsite, ⟨hx, hgenerated, _⟩, hy, hrecv, _⟩ :=
    (capture?_eq_some F).mp h.capture
  have hthat := ((ht.operand (List.mem_singleton_self _)).operand (List.mem_singleton_self _)).op?
  obtain rfl : that = this := by
    cases hthat.symm.trans (ldloc?_eq_some.mp h.load)
    rfl
  exact ⟨⟨new, site, ht, hsite⟩, (Option.any_eq_true _ _).mpr ⟨x, hx, hgenerated⟩,
    (Option.any_eq_true _ _).mpr ⟨y, hy, hrecv⟩⟩

/-- Each first construction of a variable is still to be scanned or has been replaced. -/
def Progress (r : Routine) (settings : Settings) (P : NodeId → Prop) (due : NodeId → NodeId → Prop)
    (become : NodeId → Option NodeId) (s : Routine) : Prop :=
  ∀ block inst c this, r.First settings block inst c this → P inst →
    (Waits settings c inst this s ∧ due block inst) ∨ Redone c block inst this become s

theorem Progress.mono {due due' : NodeId → NodeId → Prop} (h : r.Progress settings P due become s)
    (hdue : ∀ block inst c this, r.First settings block inst c this →
      Waits settings c inst this s → due block inst → due' block inst) :
    r.Progress settings P due' become s := by
  intro block inst c this hfirst hP
  exact (h block inst c this hfirst hP).imp_left fun ⟨hwaits, hd⟩ =>
    ⟨hwaits, hdue block inst c this hfirst hwaits hd⟩

theorem Valid.entry_spec (V : r.Valid) (h : b ∈ r.entryBlocks) :
    r.isConnected b = true ∧ r.isBlock b = true := by
  obtain ⟨container, hc, _, hentry⟩ := V.mem_entryBlocks.mp h
  exact (V.block_of_mem_blocks hc (mem_blocks_of_entry hentry)).2

namespace First

variable (h : r.First settings block inst c this) (V : r.Valid)
include h V

theorem parent : r.parent? inst = some block := by
  obtain ⟨i, hi⟩ := List.getElem?_of_mem h.mem
  exact V.forest.parent?_of_mem (List.mem_of_getElem? (getElem?_instructions hi).2)

theorem isBlock_block (hkept : Kept r s) (halive : s.isAlive inst = true) :
    s.isBlock block = true :=
  (hkept.slot inst block (h.parent V) (V.entry_spec h.entry).2 halive).2

end First

/-- An edit that spares stores leaves constructions to be scanned, and what has come into the place
    of others. -/
theorem Progress.step {due due' : NodeId → NodeId → Prop} (h : r.Progress settings P due become s)
    (V : r.Valid) (F : s'.Forest) (htraced : Traced r settings s become)
    (htraced' : Traced r settings s' become')
    (hkept : Kept s s') (hspares : Spares s s' P)
    (hholder : ∀ v, s.isHolder settings v = true → s'.isHolder settings v = true)
    (hbecome : ∀ k new v load this, become k = some new →
      s.Holds (.node new (.stloc v) [.node load (.ldloc this) []]) → become' k = some new)
    (hdue : ∀ block inst c this, r.First settings block inst c this → P inst →
      s'.isAlive inst = true → Waits settings c inst this s → due block inst → due' block inst) :
    r.Progress settings P due' become' s' := by
  intro block inst c this hfirst hP
  have hparent := hfirst.parent V
  have hold : r.isAlive block = true := isAlive_of_isConnected (V.entry_spec hfirst.entry).1
  have hmid : ∀ {k}, r.isAlive k = true → s'.isAlive k = true → s.isAlive k = true :=
    htraced.toKept.isAlive_between hkept
  rcases h block inst c this hfirst hP with ⟨hwaits, hd⟩ | ⟨hdead, hnew⟩
  · obtain ⟨new, site, ht, hsite⟩ := hwaits.holds
    by_cases hs : s'.isAlive block = true
    · have halive' : s'.isAlive inst = true := hspares.alive inst c.holder block hP ht.op?
        (htraced.parent inst block hparent hwaits.alive) hs
      refine .inl ⟨⟨⟨new, site, hspares.holds _ ht stores_constructionTree halive', hsite⟩,
        hholder _ hwaits.holder, ?_⟩, hdue block inst c this hfirst hP halive' hwaits hd⟩
      rw [htraced'.receivers, ← htraced.receivers]
      exact hwaits.receiver
    · refine .inr ⟨Bool.eq_false_iff.mpr fun halive' => hs ?_, fun halive => absurd halive hs⟩
      exact isAlive_of_isBlock (hfirst.isBlock_block V htraced'.toKept halive')
  · refine .inr ⟨Bool.eq_false_iff.mpr fun hs => ?_, fun hs => ?_⟩
    · rw [hmid (isAlive_of_parent? hparent) hs] at hdead
      cases hdead
    · obtain ⟨new, load, hb, ht⟩ := hnew (hmid hold hs)
      have hb' := hbecome inst new c.holder load this hb ht
      refine ⟨new, load, hb', hspares.holds _ ht stores_copy ?_⟩
      obtain ⟨hc, hblock⟩ := V.entry_spec hfirst.entry
      have hmem : new ∈ s'.instructions block := by
        rw [htraced'.instructions block hc hblock hs]
        exact List.mem_filterMap.mpr ⟨inst, hfirst.mem, hb'⟩
      obtain ⟨i, hi⟩ := List.getElem?_of_mem hmem
      obtain ⟨_, hi⟩ := getElem?_instructions hi
      exact F.alive_of_mem_children (List.mem_of_getElem? hi)

/-! ## What is left of a scan -/

/-- What is still to be scanned: some blocks, and a block from an index on. -/
def Due (todo : List NodeId) (block : NodeId) (index : Nat) (s : Routine) (b inst : NodeId) :
    Prop :=
  b ∈ todo ∨ inst ∈ (s.instructions block).drop index

theorem Grafted.mem_drop {index : Nat} (G : Grafted s id p u s') (F : s.Forest)
    (hk : k ∈ (s.instructions block).drop index) (hs : s'.isAlive k = true) (hne : k ≠ id) :
    k ∈ (s'.instructions block).drop index := by
  obtain ⟨i, hi⟩ := List.getElem?_of_mem (List.mem_of_mem_drop hk)
  obtain ⟨hb, hi⟩ := getElem?_instructions hi
  obtain ⟨_, hb'⟩ := G.kept.slot k block (F.parent?_of_mem (List.mem_of_getElem? hi)) hb hs
  have hout := (G.isAlive_iff F (isAlive_of_isBlock hb)).mp (isAlive_of_isBlock hb')
  rw [G.instructions_eq_map F hb hout, ← List.map_drop]
  exact List.mem_map.mpr ⟨k, hk, if_neg hne⟩

end Routine

namespace CapturedReceiver

variable {w : Work} {r s s' : Routine} {block id inst k : NodeId} {u : Tree NodeId}
  {index next : Nat} {c : Capture} {settings : Settings} {ctx : Context} {todo : List NodeId}
  {placed : PlacedStore}

section Removal

variable (F : s.Forest)
  (hi : (s.children placed.owner)[placed.position]? = some placed.store)
include F hi

/-- When an instruction goes, a scan has no more left than before. -/
theorem length_resume :
    ((s.deleteAt placed.owner placed.position placed.store).instructions block).length -
        resume block placed next ≤ (s.instructions block).length - next := by
  cases hs : (s.deleteAt placed.owner placed.position placed.store).isAlive block with
  | false =>
    have hb := fun hb => Bool.eq_false_iff.mp hs (isAlive_of_isBlock hb)
    rw [instructions, if_neg hb, List.length_nil, Nat.zero_sub]
    exact Nat.zero_le _
  | true =>
    rw [F.instructions_deleteAt hi hs]
    have hlength : ((s.instructions block).eraseIdx placed.position).length = _ :=
      List.length_eraseIdx
    unfold resume
    grind

/-- When an instruction goes, the others that a scan had before it are still before it. -/
theorem mem_drop_resume (hk : k ∈ (s.instructions block).drop next) (hne : k ≠ placed.store)
    (hs : (s.deleteAt placed.owner placed.position placed.store).isAlive k = true) :
    k ∈ ((s.deleteAt placed.owner placed.position placed.store).instructions block).drop
      (resume block placed next) := by
  obtain ⟨i, hki⟩ := List.getElem?_of_mem (List.mem_of_mem_drop hk)
  obtain ⟨hb, hki⟩ := getElem?_instructions hki
  obtain ⟨_, hb'⟩ := (Kept.deleteAt F hi).slot k block
    (F.parent?_of_mem (List.mem_of_getElem? hki)) hb hs
  rw [F.instructions_deleteAt hi (isAlive_of_isBlock hb'), resume]
  by_cases ho : block = placed.owner
  · subst ho
    rw [if_pos rfl]
    simp only [true_and]
    have hi' : (s.instructions placed.owner)[placed.position]? = some placed.store := by
      rw [instructions, if_pos hb]
      exact hi
    exact mem_drop_eraseIdx hi' hk hne
  · rw [if_neg ho, if_neg fun h => ho h.1.symm]
    exact hk

end Removal

/-- What a fold replaces has no blocks and is no load, call or store of a variable, and what comes
    into its place loads no more. -/
theorem replaces_spec (h : c.Replaces s id u) :
    (∃ t, s.Holds t ∧ t.label = id ∧ t.Plain ∧
      (∀ op ∈ u.shown, op.isAccess = true → op ∈ t.shown) ∧
      (∀ site, t.op ≠ .call site) ∧ (∀ v, t.op ≠ .ldloc v) ∧ ∀ v, t.op ≠ .stloc v) ∧
    (∀ site, u.op ≠ .call site) ∧ (∀ v, u.op ≠ .stloc v) ∧ ∀ v, u.op = .ldloc v → v = c.holder := by
  cases h with
  | wrapper ht =>
    refine ⟨⟨_, ht, rfl, ?_⟩, ?_⟩ <;>
      simp [Tree.shown_node, Op.hides, Op.isBlock, Op.isContainer]
  | loaded ht =>
    refine ⟨⟨_, ht, rfl, ?_⟩, ?_⟩ <;>
      simp [Tree.shown_node, Op.hides, Op.isAccess, Op.isBlock, Op.isContainer]
  | @unboxed _ _ type _ _ ht _ _ hop hbare =>
    have huop : u.op = .unbox type := by rw [← Tree.op_bare, hbare, Tree.op_bare, hop]
    have hshown : u.shown = [.unbox type] := by rw [Tree.shown_of_hides (by rw [huop]; rfl), huop]
    refine ⟨⟨_, ht, rfl, ?_⟩, ?_⟩
    · simp [hshown, Op.isAccess, Op.isBlock, Op.isContainer]
    · simp [huop]

/-! ## Folds -/

/-- What holds while the scan is at an index of a block: the input is traced, and those of the
    constructions in question that are not yet replaced lie ahead. -/
def Underway (r : Routine) (settings : Settings) (P : NodeId → Prop) (todo : List NodeId)
    (block : NodeId) (index : Nat) (s : Routine) : Prop :=
  ∃ become, r.Traced settings s become ∧ r.Progress settings P (s.Due todo block index) become s

/-- The replacements of a fold leave the constructions as they are. -/
theorem keeps_underway {P : NodeId → Prop} (V : r.Valid)
    (hholder : r.isHolder settings c.holder = true) :
    c.Keeps (Underway r settings P todo block index) := by
  rintro s s' id p u Vs hreplaces G ⟨become, htraced, hprogress⟩
  have F := Vs.forest
  obtain ⟨⟨t, ht, rfl, hplain, hshown, hcall, hload, hstore⟩, hucall, hustore, huload⟩ :=
    replaces_spec hreplaces
  have hop := ht.op?
  have hne : ∀ k v, s.op? k = some (.stloc v) → k ≠ t.label := by
    rintro k v hk rfl
    exact hstore v (Option.some.inj (hop.symm.trans hk))
  have htraced' := htraced.graft Vs G ht rfl hplain hshown hucall
    (fun v hv => absurd hv (hustore v)) fun v hv => huload v hv ▸ hholder
  refine ⟨_, htraced', hprogress.step V G.valid.forest htraced htraced' G.kept
    (G.spares F hop hcall hload fun k v _ => hne k v)
    (fun v hv => (G.head.isHolder v).trans hv) ?_ ?_⟩
  · intro k new v load this hb ht
    show (become k).map _ = _
    rw [hb, Option.map_some, if_neg (hne new v ht.op?)]
  · rintro b inst c this _ _ hs hwaits (hb | hdrop)
    · exact .inl hb
    · obtain ⟨_, _, ht, _⟩ := hwaits.holds
      exact .inr (G.mem_drop F hdrop hs (hne inst c.holder ht.op?))

/-- When a construction is replaced, the scan may go past it, and it is redone. -/
theorem Underway.construct {new n l : NodeId} {site : CallSite} {this : VarId} (V : r.Valid)
    (hblock : block ∈ r.entryBlocks) (Vs : s.Valid)
    (h : Underway r settings (· ≠ inst) todo block index s)
    (hi : (s.instructions block)[index]? = some inst)
    (ht : s.Holds (constructionTree c inst new site this))
    (hself : ∀ b c' this', r.First settings b inst c' this' → c'.holder = c.holder ∧ this' = this)
    (G : Grafted s inst block (.node n (.stloc c.holder) [.node l (.ldloc this) []]) s') :
    Underway r settings (fun _ => True) todo block (index + 1) s' := by
  obtain ⟨become, htraced, hprogress⟩ := h
  have F := Vs.forest
  have htraced' := htraced.graft Vs G ht rfl (by simp [Op.isBlock, Op.isContainer])
    (by simp [Tree.shown_node, Op.hides]) (by simp) (by simp) (by simp)
  have hothers : r.Progress settings (· ≠ inst) (s'.Due todo block (index + 1))
      (fun k => (become k).map fun i => if i = inst then n else i) s' := by
    refine hprogress.step V G.valid.forest htraced htraced' G.kept
      (G.spares F ht.op? (by simp) (by simp) fun k _ hk _ => hk)
      (fun v hv => (G.head.isHolder v).trans hv) (fun k new' v load that hb hcopy => ?_)
      fun b other c' this' _ hne hs hwaits hdue => ?_
    · -- what has been redone is not redone again
      have hne : new' ≠ inst := by
        rintro rfl
        cases hcopy.unique ht rfl
      show (become k).map _ = _
      rw [hb, Option.map_some, if_neg hne]
    · refine hdue.imp_right fun hdrop => ?_
      rw [List.drop_eq_getElem?_toList_append, hi] at hdrop
      exact G.mem_drop F ((List.mem_cons.mp hdrop).resolve_left hne) hs hne
  refine ⟨_, htraced', fun b other c' this' hfirst _ => ?_⟩
  by_cases hne : other = inst
  · subst hne
    obtain ⟨hholder, rfl⟩ := hself b c' this' hfirst
    obtain ⟨hconn, hb⟩ := V.entry_spec hblock
    have hstays := (htraced.become_eq hconn hb (List.mem_of_getElem? hi)
      (isAlive_of_parent? (hfirst.parent V))).2
    refine .inr ⟨Bool.eq_false_iff.mpr fun hs => ?_, fun _ => ⟨n, l, ?_, hholder ▸ G.new⟩⟩
    · exact (G.isAlive_iff F ht.alive).mp hs (Above.refl s other)
    · show (become other).map _ = _
      rw [hstays, Option.map_some, if_pos rfl]
      rfl
  · exact hothers b other c' this' hfirst hne

/-- The removal of a forwarding store. -/
theorem Underway.remove {type : TypeDecl} (V : r.Valid) (Vs : s.Valid)
    (h : Underway r settings (fun _ => True) todo block next s)
    (hb : s.isBlock placed.owner = true)
    (hi : (s.children placed.owner)[placed.position]? = some placed.store)
    (hop : s.op? placed.store = some (.stobj type))
    (hspared : ∀ b, r.isConnected b = true → r.isBlock b = true → r.inStoredUnbox b = false →
      ¬ s.Above placed.store b) :
    Underway r settings (fun _ => True) todo block (resume block placed next)
      (s.deleteAt placed.owner placed.position placed.store) := by
  obtain ⟨become, htraced, hprogress⟩ := h
  have F := Vs.forest
  have hne : ∀ k v, s.op? k = some (.stloc v) → k ≠ placed.store := by
    rintro k v hk rfl
    cases hk.symm.trans hop
  have htraced' := htraced.deleteAt Vs hb hi hspared
  refine ⟨_, htraced', hprogress.step V (F.deleteAt hb hi) htraced htraced' (Kept.deleteAt F hi)
    (F.spares_deleteAt hi hop (by simp) (by simp) (by simp))
    (fun v hv => ((sameHead_deleteAt s _ _ _).isHolder v).trans hv)
    (fun k new v load this hbecome ht => ?_)
    fun b other c this _ _ hs hwaits hdue => ?_⟩
  · show (become k).filter _ = _
    rw [hbecome, Option.filter_some, if_pos (bne_iff_ne.mpr (hne new v ht.op?))]
  · obtain ⟨_, _, ht, _⟩ := hwaits.holds
    exact hdue.imp_right fun hdrop => mem_drop_resume F hi hdrop (hne other c.holder ht.op?) hs

/-- A construction has another variable than a first one that is still to be scanned. -/
theorem holder_ne_of_first {b other : NodeId} {that : VarId} {v : VarId}
    {become : NodeId → Option NodeId} (hfirst : r.First settings b other c that) (V : r.Valid)
    (hblocks : (block :: todo).Sublist r.entryBlocks) (htraced : r.Traced settings s become)
    (hi : (s.instructions block)[index]? = some inst) (hbuilds : s.builds v inst = true)
    (hconstructs : s.Constructs settings inst) (hdue : s.Due todo block index b other)
    (hne : other ≠ inst) : c.holder ≠ v := by
  rintro rfl
  obtain ⟨hconn, hb⟩ := V.entry_spec (hblocks.subset List.mem_cons_self)
  obtain ⟨hbuilt, hback⟩ :=
    htraced.builds block hconn hb inst (List.mem_of_getElem? hi) c.holder hbuilds
  have hcontends := V.forest.contends_of_aspires hbuilt (hback (.inl hconstructs))
  obtain ⟨_, _, hop, _⟩ := builds_iff.mp hbuilt
  have hold := isAlive_of_op? hop
  have hmem := (htraced.become_eq hconn hb (List.mem_of_getElem? hi) hold).1
  have hflat : ((block :: todo).flatMap r.instructions).Sublist
      (r.entryBlocks.flatMap r.instructions) := hblocks.flatMap r.instructions
  rw [List.flatMap_cons] at hflat
  refine hfirst.first inst (hflat.subset (List.mem_append_left _ hmem)) hne.symm hcontends
    (List.Sublist.trans ?_ hflat)
  rcases hdue with htodo | hdrop
  · exact (List.singleton_sublist.mpr hmem).append
      (List.singleton_sublist.mpr (List.mem_flatMap.mpr ⟨b, htodo, hfirst.mem⟩))
  · rw [List.drop_eq_getElem?_toList_append, hi] at hdrop
    exact (htraced.precedes hconn hb hi ((List.mem_cons.mp hdrop).resolve_left hne) hold
      (isAlive_of_parent? (hfirst.parent V))).trans (List.sublist_append_left _ _)

/-- When the holder of a construction gets the receiver's type, the others are known as before. -/
theorem Underway.retyped (V : r.Valid) (hblocks : (block :: todo).Sublist r.entryBlocks)
    (h : Underway r settings (fun _ => True) todo block index s)
    (hi : (s.instructions block)[index]? = some inst) (hbuilds : s.builds c.holder inst = true)
    (hconstructs : s.Constructs settings inst) (hholder : s.isHolder settings c.holder = true) :
    Underway r settings (· ≠ inst) todo block index (c.retyped s) := by
  obtain ⟨become, htraced, hprogress⟩ := h
  refine ⟨become, htraced.retyped hholder, fun b other c' this hfirst hne => ?_⟩
  refine (hprogress b other c' this hfirst trivial).imp ?_ ?_
  · rintro ⟨hwaits, hdue⟩
    obtain ⟨new, site, ht, hsite⟩ := hwaits.holds
    refine ⟨⟨⟨new, site, holds_retyped c ht, hsite⟩, ?_, ?_⟩, hdue⟩
    · rw [isHolder, Capture.retyped, var?_modifyVariable,
        if_neg (holder_ne_of_first hfirst V hblocks htraced hi hbuilds hconstructs hdue hne)]
      exact hwaits.holder
    · rw [isReceiver_retyped]
      exact hwaits.receiver
  · rintro ⟨hdead, hredone⟩
    refine ⟨hdead, fun halive => ?_⟩
    obtain ⟨new, load, hbecome, ht⟩ := hredone halive
    exact ⟨new, load, hbecome, holds_retyped c ht⟩

theorem fold_underway
    (hidle : ∀ block index options w, ctx.inliner block index options w = .ok 0 w) (V : r.Valid)
    (hblocks : (block :: todo).Sublist r.entryBlocks) (Vs : s.Valid)
    (h : Underway r settings (fun _ => True) todo block index s)
    (hi : (s.instructions block)[index]? = some inst) (hc : s.capture? settings inst = some c) :
    Ends (fold ctx block index c) (w.on s) fun next w' => (w'.routine.Valid ∧
      Underway r settings (fun _ => True) todo block next w'.routine) ∧
      (w'.routine.instructions block).length - next ≤
        (s.instructions block).length - (index + 1) := by
  have hblock := hblocks.subset List.mem_cons_self
  obtain ⟨new, site, this, x, _, ht, ⟨hkind, _⟩, ⟨hx, hgenerated, _⟩, _⟩ :=
    (capture?_eq_some Vs.forest).mp hc
  have hholder : s.isHolder settings c.holder = true :=
    (Option.any_eq_true _ _).mpr ⟨x, hx, hgenerated⟩
  have hconstructs : s.Constructs settings inst := by
    by_contra hnot
    rw [Vs.forest.capture?_eq_none.mpr hnot] at hc
    cases hc
  have hnew := ht.operand (List.mem_singleton_self _)
  have hthis := (hnew.operand (List.mem_singleton_self _)).op?
  have hbuilds : s.builds c.holder inst = true :=
    builds_iff.mpr ⟨new, site, ht.op?, ht.children, hnew.op?, hkind⟩
  have hretyped := h.retyped V hblocks hi hbuilds hconstructs hholder
  obtain ⟨become, htraced, hprogress⟩ := h
  have hconn : s.isConnected block = true := htraced.connected block (V.entry_spec hblock).1
    (isAlive_of_isBlock (getElem?_instructions hi).1)
  have hself : ∀ b c' this', r.First settings b inst c' this' →
      c'.holder = c.holder ∧ this' = this := by
    intro b c' this' hfirst
    rcases hprogress b inst c' this' hfirst trivial with ⟨hwaits, _⟩ | ⟨hdead, _⟩
    · obtain ⟨_, _, ht', _⟩ := hwaits.holds
      have hsame := ht'.unique ht rfl
      simp only [Tree.node.injEq, List.cons.injEq, Op.stloc.injEq, Op.ldloc.injEq] at hsame
      exact ⟨hsame.2.1, hsame.2.2.1.2.2.1.2.1⟩
    · cases hdead.symm.trans ht.alive
  refine (fold_idle (J := fun next q => Underway r settings (fun _ => True) todo block next q ∧
    (q.instructions block).length - next ≤ (s.instructions block).length - (index + 1))
    hidle (keeps_underway V (htraced.holders _ hholder)) hretyped Vs hconn hi hc hthis
    ?_ ?_).mono ?_
  · intro q q' new' site' n l Vq hq hi' ht' G hlength
    exact ⟨hq.construct V hblock Vq hi' ht' hself G, Nat.le_of_eq (congrArg (· - _) hlength)⟩
  · intro next q placed type Vq hq hmem hbo hi' hop
    obtain ⟨f, hf, hstore⟩ := List.mem_map.mp hmem
    refine ⟨hq.1.remove V Vq hbo hi' hop fun b hc hb hnot habove => ?_,
      Nat.le_trans (length_resume Vq.forest hi') hq.2⟩
    obtain ⟨become', htraced', _⟩ := hq.1
    have hbefore := htraced'.above_back V Vq.forest habove hc
    have htraced₁ := htraced.retyped (c := c) hholder
    have V₁ := Vs.retype c.holder c.receiverType
    exact htraced₁.not_above_of_forwards V V₁ hf hc hb hnot (hstore ▸
      htraced₁.above_stays V₁.forest hbefore (htraced₁.stays b hc hb hnot))
  · rintro next w' q ⟨⟨Vq, _⟩, hq, hlength⟩
    exact ⟨⟨Vq, hq⟩, hlength⟩

/-! ## The pass -/

theorem visit_underway
    (hidle : ∀ block index options w, ctx.inliner block index options w = .ok 0 w) (V : r.Valid)
    (hblocks : (block :: todo).Sublist r.entryBlocks) :
    Advances block (visit ctx block) fun next w => w.routine.Valid ∧
      Underway r ctx.settings (fun _ => True) todo block next w.routine := by
  intro w s index inst ⟨Vs, h⟩ hi
  have hless := length_sub_succ_lt hi
  refine Ends.bind (Ends.routine ?_)
  cases hc : s.capture? ctx.settings inst with
  | none =>
    obtain ⟨become, htraced, hprogress⟩ := h
    refine Ends.pure ⟨⟨Vs, become, htraced, hprogress.mono fun b other c this _ hwaits hdue => ?_⟩,
      hless⟩
    refine hdue.imp_right fun hdrop => ?_
    have hdrop : other ∈ (s.instructions block).drop index := hdrop
    rw [List.drop_eq_getElem?_toList_append, hi] at hdrop
    refine (List.mem_cons.mp hdrop).resolve_left ?_
    rintro rfl
    exact Vs.forest.capture?_eq_none.mp hc hwaits.constructs
  | some c =>
    exact (fold_underway hidle V hblocks Vs h hi hc).mono fun next w' q ⟨hq, hlength⟩ =>
      ⟨hq, Nat.lt_of_le_of_lt hlength hless⟩

/-- After the scan of an entry block, only the others are still to be scanned. -/
theorem scan_underway
    (hidle : ∀ block index options w, ctx.inliner block index options w = .ok 0 w) (V : r.Valid)
    (hblocks : (block :: todo).Sublist r.entryBlocks) (Vs : s.Valid)
    {become : NodeId → Option NodeId} (htraced : r.Traced ctx.settings s become)
    (hprogress : r.Progress ctx.settings (fun _ => True) (fun b _ => b ∈ block :: todo) become s) :
    Ends (scan block (visit ctx block)) (w.on s) fun _ w' => w'.routine.Valid ∧
      ∃ become, r.Traced ctx.settings w'.routine become ∧ r.Progress ctx.settings (fun _ => True)
        (fun b _ => b ∈ todo) become w'.routine := by
  refine (scan_ends (visit_underway hidle V hblocks) ⟨Vs, become, htraced, ?_⟩).mono ?_
  · refine hprogress.mono fun b inst c this hfirst hwaits hdue => ?_
    refine (List.mem_cons.mp hdue).symm.imp_right ?_
    rintro rfl
    exact htraced.mem_instructions V.forest Vs.forest hfirst.mem hwaits.alive
  · rintro _ w' q ⟨last, ⟨Vq, become', htraced', hprogress'⟩, hlast⟩
    refine ⟨Vq, become', htraced', hprogress'.mono fun b inst c this _ _ hdue => ?_⟩
    refine hdue.resolve_right fun hdrop => ?_
    rw [List.drop_eq_nil_of_le hlast] at hdrop
    cases hdrop

/-- The step of the run at a container, of which some are left. -/
theorem container_underway {container : NodeId} {containers : List NodeId}
    (hidle : ∀ block index options w, ctx.inliner block index options w = .ok 0 w) (V : r.Valid)
    (hrest : (container :: containers).Sublist r.containers) (Vs : s.Valid)
    {become : NodeId → Option NodeId} (htraced : r.Traced ctx.settings s become)
    (hprogress : r.Progress ctx.settings (fun _ => True)
      (fun b _ => b ∈ (container :: containers).filterMap r.entry?) become s) :
    Ends (if s.isConnected container = true then
        match s.entry? container with
        | some block => scan block (visit ctx block)
        | none => pure ()
      else pure ()) (w.on s) fun _ w' => w'.routine.Valid ∧
      ∃ become, r.Traced ctx.settings w'.routine become ∧ r.Progress ctx.settings (fun _ => True)
        (fun b _ => b ∈ containers.filterMap r.entry?) become w'.routine := by
  obtain ⟨hconn, hcontainer⟩ :=
    V.forest.connected_of_mem_containers (hrest.subset List.mem_cons_self)
  by_cases hc : s.isConnected container = true
  · rw [if_pos hc, htraced.entry_eq hconn hcontainer (isAlive_of_isConnected hc)]
    cases hb : r.entry? container with
    | none =>
      rw [List.filterMap_cons_none hb] at hprogress
      exact Ends.pure ⟨Vs, become, htraced, hprogress⟩
    | some block =>
      rw [List.filterMap_cons_some hb] at hprogress
      have hblocks := hrest.filterMap r.entry?
      rw [List.filterMap_cons_some hb] at hblocks
      exact scan_underway hidle V hblocks Vs htraced hprogress
  · -- the blocks of a container that has left the tree are gone
    rw [if_neg hc]
    refine Ends.pure
      ⟨Vs, become, htraced, hprogress.mono fun b inst c this hfirst hwaits hdue => ?_⟩
    obtain ⟨container', hmem, hb⟩ := List.mem_filterMap.mp hdue
    rcases List.mem_cons.mp hmem with rfl | hmem
    · have hblock := hfirst.isBlock_block V htraced.toKept hwaits.alive
      have hp := htraced.parent b container'
        (V.block_of_mem_blocks hconn (mem_blocks_of_entry hb)).1 (isAlive_of_isBlock hblock)
      obtain ⟨n, hn⟩ := Vs.forest.exists_parent_node? hp
      exact absurd (htraced.connected container' hconn (isAlive_of_node? hn)) hc
    · exact List.mem_filterMap.mpr ⟨container', hmem, hb⟩

theorem run_underway
    (hidle : ∀ block index options w, ctx.inliner block index options w = .ok 0 w)
    (hon : ctx.settings.foldCaptures = true) (V : r.Valid) :
    Ends (pass.run ctx) (w.on r) fun _ w' => w'.routine.Valid ∧
      ∃ become, r.Traced ctx.settings w'.routine become ∧ r.Progress ctx.settings (fun _ => True)
        (fun _ _ => False) become w'.routine := by
  show Ends (if ctx.settings.foldCaptures then _ else _) _ _
  rw [if_pos hon]
  refine Ends.bind (Ends.routine ?_)
  refine (Ends.forM (I := fun cs w => cs.Sublist r.containers ∧ w.routine.Valid ∧
    ∃ become, r.Traced ctx.settings w.routine become ∧ r.Progress ctx.settings (fun _ => True)
      (fun b _ => b ∈ cs.filterMap r.entry?) become w.routine)
    (fun container cs w s h => ?_)
    ⟨List.Sublist.refl _, V, some, Traced.refl r ctx.settings, ?_⟩).mono ?_
  · obtain ⟨hcs, Vs, become, htraced, hprogress⟩ := h
    refine Ends.bind (Ends.routine ?_)
    exact (container_underway hidle V hcs Vs htraced hprogress).mono fun _ _ _ h =>
      ⟨List.sublist_of_cons_sublist hcs, h⟩
  · intro b inst c this hfirst _
    exact .inl ⟨hfirst.waits V.forest, hfirst.entry⟩
  · rintro _ w' q ⟨_, Vq, become, htraced, hprogress⟩
    exact ⟨Vq, become, htraced, hprogress.mono fun _ _ _ _ _ _ hdue => nomatch hdue⟩

/-- The pass, with an inliner that leaves everything as it is, folds each construction of a capture
    object in an entry block of the tree if no instruction before it in the order of the scan
    contends for the same variable. The instructions of a block that stays are those from before,
    with some replaced by fresh ones and some gone; in the place of the construction there is a
    store of the receiver. Only a block in an `unbox` that is stored may go. -/
theorem run_folds_first (ctx : Context) (hreach : Reachable w.routine)
    (hvalid : w.routine.validate = .ok ()) (hon : ctx.settings.foldCaptures = true)
    (hidle : ∀ block index options w, ctx.inliner block index options w = .ok 0 w) :
    ∃ w' become, pass.run ctx w = .ok () w' ∧ w'.routine.validate = .ok () ∧
      (∀ k new, become k = some new → new = k ∨ w.routine.isAlive new = false) ∧
      (∀ block, w.routine.isConnected block = true → w.routine.isBlock block = true →
        w'.routine.isConnected block = true →
        w'.routine.instructions block = (w.routine.instructions block).filterMap become) ∧
      ∀ block ∈ w.routine.entryBlocks, ∀ inst ∈ w.routine.instructions block, ∀ c this,
        w.routine.capture? ctx.settings inst = some c → w.routine.ldloc? c.receiver = some this →
        (∀ other ∈ w.routine.entryBlocks.flatMap w.routine.instructions, other ≠ inst →
          w.routine.contends ctx.settings c.holder other = true →
          ¬ [other, inst].Sublist (w.routine.entryBlocks.flatMap w.routine.instructions)) →
        w'.routine.isAlive inst = false ∧
        (w.routine.inStoredUnbox block = false → w'.routine.isConnected block = true) ∧
        (w'.routine.isConnected block = true → ∃ new load,
          become inst = some new ∧ w'.routine.stloc? new = some (c.holder, load) ∧
            w'.routine.ldloc? load = some this) := by
  have V := (Routine.valid_iff hreach).mp hvalid
  obtain ⟨_, w', hrun, V', become, htraced, hprogress⟩ := run_underway (w := w) hidle hon V
  refine ⟨w', become, hrun, V'.validate, fun k new hnew => ?_, fun block hc hb hc' => ?_, ?_⟩
  · refine (htraced.fresh k new hnew).imp_right fun hsize => Bool.eq_false_iff.mpr fun halive => ?_
    have := index_lt_of_isAlive halive
    omega
  · exact htraced.instructions block hc hb (isAlive_of_isConnected hc')
  · intro block hblock inst hinst c this hc hthis hbefore
    obtain ⟨_, hfalse⟩ | ⟨hdead, hredone⟩ :=
      hprogress block inst c this ⟨hblock, hinst, hc, hthis, hbefore⟩ trivial
    · exact hfalse.elim
    · refine ⟨hdead, fun hnot => ?_, fun hconn => ?_⟩
      · obtain ⟨hconn, hb⟩ := V.entry_spec hblock
        exact htraced.connected block hconn (htraced.stays block hconn hb hnot)
      obtain ⟨new, load, hbecome, ht⟩ := hredone (isAlive_of_isConnected hconn)
      exact ⟨new, load, hbecome, stloc?_eq_some.mpr ⟨ht.op?, ht.children⟩,
        ldloc?_eq_some.mpr (ht.operand (List.mem_singleton_self _)).op?⟩

namespace Pair

/-- `cap` is constructed twice. -/
def twice : Routine := build (construction 2 ++ construction 5)

/-- The calls that declare a receiver `that` of the closure's type and append

      stloc that(newobj closure::.ctor(ldloc this))
      stloc cap(newobj closure::.ctor(ldobj Widget(ldflda outer(ldloc that)))) -/
def contender : List Primitive :=
  [ .declare .receiver 1 "that" Sample.closure,
    .load ⟨0⟩, .create (.call Sample.construct) [⟨2⟩], .create (.stloc ⟨5⟩) [⟨3⟩], .push ⟨1⟩ ⟨4⟩,
    .load ⟨5⟩, .create (.ldflda Sample.outer) [⟨5⟩], .create (.ldobj .widget) [⟨6⟩],
    .create (.call Sample.construct) [⟨7⟩], .create (.stloc ⟨1⟩) [⟨8⟩], .push ⟨1⟩ ⟨9⟩]

/-- `cap` is constructed behind an instruction that contends for it. -/
def contended : Routine := build (contender ++ construction 10)

end Pair

set_option maxRecDepth 8000 in
/-- The first of two constructions of `cap` is gone, and `cap` gets the receiver. -/
theorem first_folded : ∃ w' new load,
    pass.run { settings := {}, inliner := Inliner.idle } { routine := Pair.twice } = .ok () w' ∧
    w'.routine.isAlive ⟨4⟩ = false ∧ w'.routine.stloc? new = some (⟨1⟩, load) ∧
      w'.routine.ldloc? load = some ⟨0⟩ := by
  have hreach : Reachable Pair.twice := (Reachable.empty _ _).after _
  obtain ⟨w', become, hrun, _, _, _, hfolded⟩ := run_folds_first (w := { routine := Pair.twice })
    { settings := {}, inliner := Inliner.idle } hreach (by decide +kernel) rfl fun _ _ _ _ => rfl
  obtain ⟨hdead, hstays, hnew⟩ := hfolded ⟨1⟩ (by decide +kernel) ⟨4⟩ (by decide +kernel)
    ⟨⟨1⟩, ⟨2⟩, .widget, Sample.closure⟩ ⟨0⟩ rfl rfl (by decide +kernel)
  obtain rfl := after_of_ok hrun
  obtain ⟨new, load, _, hstore, hload⟩ := hnew (hstays (by decide +kernel))
  exact ⟨_, new, load, hrun, hdead, hstore, hload⟩

set_option maxRecDepth 8000 in
/-- Of two constructions of `cap`, the second stays: when the scan comes to it, the variable has the
    receiver's type, and its name no longer marks a capture object. -/
theorem second_left : ∃ w w' : Work, Reachable w.routine ∧ w.routine.validate = .ok () ∧
    pass.run { settings := {}, inliner := Inliner.idle } w = .ok () w' ∧
    ⟨1⟩ ∈ w.routine.entryBlocks ∧ w.routine.instructions ⟨1⟩ = [⟨4⟩, ⟨7⟩] ∧
    Pair.captures w.routine = [true, true] ∧ ⟨7⟩ ∈ w'.routine.instructions ⟨1⟩ ∧
    w'.routine.builds ⟨1⟩ ⟨7⟩ = true ∧
    (w'.routine.var? ⟨1⟩).map (·.type) = some TypeDecl.widget := by
  have hreach : Reachable Pair.twice := (Reachable.empty _ _).after _
  have hrun := eq_ok_of_answer? (m := pass.run { settings := {}, inliner := Inliner.idle })
    (w := { routine := Pair.twice }) (a := ()) (by decide +kernel)
  exact ⟨{ routine := Pair.twice }, _, hreach, by decide +kernel, hrun, by decide +kernel,
    by decide +kernel, by decide +kernel, by decide +kernel, by decide +kernel, by decide +kernel⟩

set_option maxRecDepth 8000 in
/-- The first construction of `cap` stays behind an instruction that is none at first: the wrapper
    in this one collapses to a load of a receiver, so that it is folded before. -/
theorem left_behind_contender : ∃ w w' : Work, Reachable w.routine ∧
    w.routine.validate = .ok () ∧
    pass.run { settings := {}, inliner := Inliner.idle } w = .ok () w' ∧
    w.routine.instructions ⟨1⟩ = [⟨4⟩, ⟨9⟩, ⟨12⟩] ∧ Pair.captures w.routine = [true, false, true] ∧
    w.routine.contends {} ⟨1⟩ ⟨9⟩ = true ∧ ⟨12⟩ ∈ w'.routine.instructions ⟨1⟩ ∧
    w'.routine.builds ⟨1⟩ ⟨12⟩ = true := by
  have hreach : Reachable Pair.contended := (Reachable.empty _ _).after _
  have hrun := eq_ok_of_answer? (m := pass.run { settings := {}, inliner := Inliner.idle })
    (w := { routine := Pair.contended }) (a := ()) (by decide +kernel)
  exact ⟨{ routine := Pair.contended }, _, hreach, by decide +kernel, hrun, by decide +kernel,
    by decide +kernel, by decide +kernel, by decide +kernel, by decide +kernel⟩

set_option maxRecDepth 8000 in
/-- A construction in a stored `unbox` goes with its block. The copy that stands for the field
    constructs a capture object in the same variable, and stays. -/
theorem copy_left : ∃ w w' : Work, Reachable w.routine ∧ w.routine.validate = .ok () ∧
    pass.run { settings := {}, inliner := Inliner.idle } w = .ok () w' ∧
    ⟨8⟩ ∈ w.routine.entryBlocks ∧ w.routine.instructions ⟨8⟩ = [⟨11⟩] ∧
    (w.routine.capture? {} ⟨11⟩).map (·.holder) = some ⟨2⟩ ∧
    w.routine.inStoredUnbox ⟨8⟩ = true ∧ w'.routine.isAlive ⟨8⟩ = false ∧
    ∃ inst ∈ w'.routine.entryBlocks.flatMap w'.routine.instructions,
      (w'.routine.capture? {} inst).map (·.holder) = some ⟨2⟩ := by
  have hreach : Reachable Pair.enclosed := (Reachable.empty _ _).after _
  have hrun := eq_ok_of_answer? (m := pass.run { settings := {}, inliner := Inliner.idle })
    (w := { routine := Pair.enclosed }) (a := ()) (by decide +kernel)
  exact ⟨{ routine := Pair.enclosed }, _, hreach, by decide +kernel, hrun, by decide +kernel,
    by decide +kernel, by decide +kernel, by decide +kernel, by decide +kernel, by decide +kernel⟩

end CapturedReceiver

end CilFold
