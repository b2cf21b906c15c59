/-
  Runs of passes that end without a refusal. `PassM.Ends m w Q` says that the computation `m`,
  started on `w`, is not refused and that `Q` holds of its answer and of what it leaves; the
  lemmas follow the ways in which computations are put together.
-/
import CilFold.Pass.Apply
import CilFold.Proofs.Validity

namespace CilFold

variable {α β : Type}

namespace Work

/-- The work with another routine. -/
def on (w : Work) (r : Routine) : Work := { w with routine := r }

/-- The work with one more event. -/
def noted (w : Work) (e : Event) : Work := { w with log := w.log.record e }

end Work

namespace PassM

/-- What a computation leaves, refused or not. -/
def after (m : PassM α) (w : Work) : Work :=
  match m w with
  | .ok _ w' | .error _ w' => w'

theorem after_of_ok {m : PassM α} {w w' : Work} {a : α} (h : m w = .ok a w') : m.after w = w' := by
  rw [after, h]

/-- What a computation answers if it is not refused. -/
def answer? (m : PassM α) (w : Work) : Option α :=
  match m w with
  | .ok a _ => some a
  | .error _ _ => none

theorem eq_ok_of_answer? {m : PassM α} {w : Work} {a : α} (h : m.answer? w = some a) :
    m w = .ok a (m.after w) := by
  unfold answer? at h
  unfold after
  split at h
  · next hm =>
    cases h
    rw [hm]
  · cases h

/-- The computation is not refused, and what it answers and leaves is as said. -/
def Ends (m : PassM α) (w : Work) (Q : α → Work → Prop) : Prop :=
  ∃ a w', m w = .ok a w' ∧ Q a w'

variable {m : PassM α} {f : α → PassM β} {w : Work} {r s : Routine} {Q Q' : α → Work → Prop}
  {P : β → Work → Prop}

namespace Ends

theorem mono (h : Ends m w Q) (hQ : ∀ a (w' : Work) s, Q a (w'.on s) → Q' a (w'.on s)) :
    Ends m w Q' := by
  obtain ⟨a, w', hm, hq⟩ := h
  exact ⟨a, w', hm, hQ a w' w'.routine hq⟩

/-- A computation has one end, and both that are known of it are this one. -/
theorem and (h : Ends m w Q) (h' : Ends m w Q') : Ends m w fun a w' => Q a w' ∧ Q' a w' := by
  obtain ⟨a, w', hm, hq⟩ := h
  obtain ⟨b, w'', hm', hq'⟩ := h'
  cases hm.symm.trans hm'
  exact ⟨a, w', hm, hq, hq'⟩

theorem pure {a : α} (h : Q a w) : Ends (Pure.pure a) w Q := ⟨a, w, rfl, h⟩

theorem bind (h : Ends m w fun a w' => Ends (f a) w' P) : Ends (m >>= f) w P := by
  obtain ⟨a, w', hm, b, w'', hf, hP⟩ := h
  refine ⟨b, w'', ?_, hP⟩
  simp only [Bind.bind, EStateM.bind, hm, hf]

/-- What follows a computation may rely on what is known of it. -/
theorem andThen (h : Ends m w Q) (hf : ∀ a (w' : Work) s, Q a (w'.on s) → Ends (f a) (w'.on s) P) :
    Ends (m >>= f) w P := bind (h.mono hf)

theorem routine {Q : Routine → Work → Prop} (h : Q r (w.on r)) : Ends PassM.routine (w.on r) Q :=
  ⟨r, w.on r, rfl, h⟩

theorem edit {e : Edit α} {a : α} (he : e r = .ok a s) (h : Q a (w.on s)) :
    Ends (PassM.edit e) (w.on r) Q := by
  refine ⟨a, w.on s, ?_, h⟩
  unfold PassM.edit Work.on
  simp only [he]

theorem record {e : Event} {Q : Unit → Work → Prop} (h : Q () ((w.noted e).on r)) :
    Ends (PassM.record e) (w.on r) Q := ⟨(), _, rfl, h⟩

/-- A note becomes an event of its kind about the routine. -/
theorem note {pass message : String} {kind : EventKind} {location : Nat} {Q : Unit → Work → Prop}
    (h : ∀ e : Event, e.kind = kind → e.method = some r.token → Q () ((w.noted e).on r)) :
    Ends (PassM.note pass kind location message) (w.on r) Q :=
  bind (routine (record (h _ rfl rfl)))

theorem noteNode {pass : String} {kind : EventKind} {location : Nat} {id : NodeId}
    {Q : Unit → Work → Prop}
    (h : ∀ e : Event, e.kind = kind → e.method = some r.token → Q () ((w.noted e).on r)) :
    Ends (PassM.noteNode pass kind location id) (w.on r) Q :=
  bind (routine (note h))

theorem instruction {block inst : NodeId} {index : Nat} {Q : NodeId → Work → Prop}
    (hi : (r.instructions block)[index]? = some inst) (h : Q inst (w.on r)) :
    Ends (PassM.instruction block index) (w.on r) Q := by
  refine bind (routine ?_)
  rw [hi]
  exact pure h

theorem stepBack {index count : Nat} {Q : Nat → Work → Prop} (hle : count ≤ index)
    (h : Q (index - count) w) : Ends (PassM.stepBack index count) w Q := by
  rw [PassM.stepBack, if_pos hle]
  exact pure h

/-- A loop over a list keeps an invariant that may speak of the elements still to come. -/
theorem forM {f : α → PassM Unit} {I : List α → Work → Prop} {l : List α}
    (hstep : ∀ a rest (w : Work) r, I (a :: rest) (w.on r) → Ends (f a) (w.on r) fun _ => I rest)
    (h : I l w) : Ends (l.forM f) w fun _ => I [] := by
  induction l generalizing w with
  | nil => exact pure h
  | cons a l ih =>
    have hfirst : Ends (f a) w fun _ => I l := hstep a l w w.routine h
    exact bind (hfirst.mono fun _ _ _ h => ih h)

end Ends

end PassM

/-! ## Edits that are not refused -/

namespace Edit

open Routine

variable {r : Routine} {block id inst new p : NodeId} {index : Nat}

theorem remove_ok (hblock : r.isBlock block = true) (hi : (r.children block)[index]? = some inst) :
    Edit.remove block index r = .ok () (r.deleteAt block index inst) :=
  (remove_eq block index r).trans (step_of_ok (checkRemove_ok.mpr ⟨hblock, hi⟩))

theorem replace_ok (F : r.Forest) (hp : r.parent? id = some p) (hnew : r.Detached new)
    (habove : ¬ r.Above new id) (hrole : r.isBlock new = r.isContainer p) :
    Edit.replace id new r = .ok () (r.putInSlot p id new) :=
  (replace_eq F id new).trans (step_of_ok ((checkReplace_ok F).mpr ⟨hp, hnew, habove, hrole⟩))

theorem extract_ok (F : r.Forest) (hp : r.parent? id = some p) (hblock : r.isBlock p = false)
    (hcontainer : r.isContainer p = false) : Edit.extract id r = .ok id (r.detach p id) :=
  (extract_eq F id).trans (step_of_ok ((checkExtract_ok F).mpr ⟨hp, hblock, hcontainer⟩))

theorem create_ok (F : r.Forest) {op : Op} {cs : List NodeId}
    (harity : checkArity op cs.length = .ok ()) (hnd : cs.Nodup) (hcs : ∀ c ∈ cs, r.Detached c) :
    Edit.create op cs r = .ok r.nextId (r.grow op cs) := by
  refine step_of_ok (b := ()) ?_
  rw [bind_eq_ok]
  exact ⟨(), harity, (checkOperands_ok F).mpr ⟨hnd, fun c hc => ⟨List.not_mem_nil, hcs c hc⟩⟩⟩

theorem retype_ok {v : VarId} {x : Variable} (hx : r.var? v = some x) (type : TypeDecl) :
    Edit.retype v type r = .ok () (r.modifyVariable v fun v => { v with type }) := by
  refine step_of_ok (b := ()) ?_
  obtain ⟨hlt, _⟩ := Array.getElem?_eq_some_iff.mp hx
  rw [if_pos hlt]

end Edit

end CilFold
